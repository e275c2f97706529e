import DrutaDB.Process
import DrutaDB.Proofs.Isolation

/-!
# The process and the server

Neither the bytes a stream holds back nor those in a parser can be told from the commands: with
both caught up (`Server.logical`), a process takes the steps of the server on the commands that its
parsers complete, and sends the same (`run_refines`).
-/

namespace DrutaDB

open Machine Decimal Feed Run

namespace Server

/-- The server as the commands see it: what the stream holds back is written, and no parser is in
the middle of a command. -/
def logical (held : Bytes) (s : Server) : Server :=
  { s with
    aof := s.aof ++ held
    clientsMap := s.clientsMap.map fun _ c => { c with parser := {} } }

section Logical

variable (held : Bytes) (s : Server) (fd : ℤ) (channel : Bytes)

theorem client_logical : (s.logical held).client fd = { s.client fd with parser := {} } := by
  unfold client logical
  dsimp only
  rw [Std.ExtTreeMap.getElem?_map]
  cases s.clientsMap[fd]? <;> rfl

theorem logical_setClient (c : Client) : (s.setClient fd c).logical held =
    (s.logical held).setClient fd { c with parser := {} } := by
  unfold setClient logical
  congr 1
  refine Std.ExtTreeMap.ext_getElem? fun fd' => ?_
  rw [Std.ExtTreeMap.getElem?_map, Std.ExtTreeMap.getElem?_insert, Std.ExtTreeMap.getElem?_insert,
    Std.ExtTreeMap.getElem?_map]
  split_ifs <;> rfl

theorem logical_ensureClient :
    (s.ensureClient fd).logical held = (s.logical held).ensureClient fd := by
  rw [ensureClient, logical_setClient, ensureClient, client_logical]

theorem logical_setChannel (subscribers : Std.ExtTreeSet ℤ) :
    (s.setChannel channel subscribers).logical held =
      (s.logical held).setChannel channel subscribers := rfl

theorem subscribers_logical : (s.logical held).subscribers channel = s.subscribers channel := rfl

theorem logical_erase : ({ s with clientsMap := s.clientsMap.erase fd } : Server).logical held =
    { s.logical held with clientsMap := (s.logical held).clientsMap.erase fd } := by
  unfold logical
  congr 1
  refine Std.ExtTreeMap.ext_getElem? fun fd' => ?_
  rw [Std.ExtTreeMap.getElem?_map, Std.ExtTreeMap.getElem?_erase, Std.ExtTreeMap.getElem?_erase,
    Std.ExtTreeMap.getElem?_map]
  split_ifs <;> rfl

end Logical

end Server

/-! ## Publish and subscribe -/

section PubSub

variable {held : Bytes} {fd : ℤ} {args : List Bytes} {s : Server}

theorem turnedAway_logical (cmd : Bytes) :
    turnedAway (s.logical held) fd cmd = turnedAway s fd cmd := by
  unfold turnedAway
  rw [Server.client_logical]

theorem subscribeLoop_logical : ∀ (channels : List Bytes) (s : Server),
    subscribeLoop fd channels (s.logical held) =
      ((subscribeLoop fd channels s).1, (subscribeLoop fd channels s).2.logical held)
  | [], _ => rfl
  | channel :: channels, s => by
    unfold subscribeLoop
    simp only [Server.client_logical, Server.subscribers_logical, ← Server.logical_setChannel]
    split_ifs
    · rw [Server.logical_ensureClient]
    · have hset := Server.logical_setClient held
        (s.setChannel channel ((s.subscribers channel).insert fd)) fd { s.client fd with
          isSubscriber := true
          subscribedChannels := (s.client fd).subscribedChannels.insert channel }
      rw [← hset, subscribeLoop_logical channels]

theorem unsubscribeLoop_logical : ∀ (channels : List Bytes) (s : Server),
    unsubscribeLoop fd channels (s.logical held) =
      ((unsubscribeLoop fd channels s).1, (unsubscribeLoop fd channels s).2.logical held)
  | [], _ => rfl
  | channel :: channels, s => by
    unfold unsubscribeLoop
    simp only [Server.client_logical, Server.subscribers_logical, ← Server.logical_setChannel]
    have hset := Server.logical_setClient held
      (s.setChannel channel ((s.subscribers channel).erase fd)) fd { s.client fd with
        subscribedChannels := (s.client fd).subscribedChannels.erase channel
        isSubscriber := if ((s.client fd).subscribedChannels.erase channel).isEmpty then false
          else (s.client fd).isSubscriber }
    rw [← hset, unsubscribeLoop_logical channels]

theorem pubsubUnsubscribe_logical : pubsubUnsubscribe fd args (s.logical held) =
    ((pubsubUnsubscribe fd args s).1, (pubsubUnsubscribe fd args s).2.logical held) := by
  unfold pubsubUnsubscribe
  simp only [Server.client_logical]
  generalize (if args.length = 1 then _ else args.drop 1) = channels
  split_ifs
  · rw [Server.logical_ensureClient]
  · exact unsubscribeLoop_logical channels s

theorem pubsubPublish_logical : pubsubPublish args (s.logical held) =
    ((pubsubPublish args s).1, (pubsubPublish args s).2.1,
      (pubsubPublish args s).2.2.logical held) := by
  have hcontains : ∀ fd, (s.logical held).clientsMap.contains fd = s.clientsMap.contains fd :=
    fun fd => Std.ExtTreeMap.contains_map
  have hchannels : (s.logical held).channelsSubscribers = s.channelsSubscribers := rfl
  unfold pubsubPublish
  split_ifs
  · rfl
  · simp only [hchannels, hcontains]
    split
    · rfl
    · rfl

theorem pubsubCleanupClient_logical :
    pubsubCleanupClient fd (s.logical held) = (pubsubCleanupClient fd s).logical held := by
  have hfold : ∀ (channels : List Bytes) (s : Server), channels.foldl
      (fun s channel => s.setChannel channel ((s.subscribers channel).erase fd)) (s.logical held) =
        (channels.foldl (fun s channel =>
          s.setChannel channel ((s.subscribers channel).erase fd)) s).logical held := by
    intro channels
    induction channels with
    | nil => exact fun s => rfl
    | cons channel channels ih =>
      exact fun s => ih (s.setChannel channel ((s.subscribers channel).erase fd))
  have hclient : (s.logical held).clientsMap[fd]? =
      s.clientsMap[fd]?.map fun c => { c with parser := {} } := Std.ExtTreeMap.getElem?_map
  unfold pubsubCleanupClient
  rw [hclient]
  cases s.clientsMap[fd]? with
  | none => rfl
  | some c => exact hfold _ s

end PubSub

/-! ## Commands -/

section Commands

variable {held : Bytes} {now fd : ℤ} {cmd : Bytes} {args : List Bytes} {s s' : Server}

/-- What the stream holds back after a branch. -/
def Call.holds (held : Bytes) (success : Bool) (c : Call) : Bytes :=
  if c = .flushdb ∧ success then [] else held

/-- A branch cannot tell what the stream holds back, nor what is in a parser. -/
theorem Call.run_logical (c : Call) : c.run now fd cmd args (s.logical held) =
    (c.run now fd cmd args s).map fun o => (o.1, o.2.logical (c.holds held o.1.2)) := by
  cases c
  case flushdb =>
    simp only [Call.run, commandFlushdb]
    split_ifs
    · rfl
    · rfl
  case subscribe =>
    simp only [Call.run, pubsubSubscribe, subscribeLoop_logical]
    rfl
  case unsubscribe =>
    simp only [Call.run, pubsubUnsubscribe_logical]
    rfl
  case publish =>
    simp only [Call.run, commandPublish, pubsubPublish_logical]
    rfl
  case ping => rfl
  case echo => rfl
  case command => rfl
  case unknown => rfl
  all_goals
    simp only [Call.run, onStore]
    have hstore : (s.logical held).store = s.store := rfl
    rw [hstore]
    split <;> rfl

/-- Only `FLUSHDB` touches the file, and no command rewrites it by itself. -/
theorem Call.run_file {c : Call} {o : Sends × Bool} (h : c.run now fd cmd args s = .ok (o, s')) :
    s'.rewrites = s.rewrites ∧ (¬ (c = .flushdb ∧ o.2) → s'.aof = s.aof) := by
  cases c
  case flushdb =>
    have hf := Except.ok.inj h
    unfold commandFlushdb at hf
    split_ifs at hf <;> obtain ⟨rfl, rfl⟩ := Prod.mk.inj hf
    · exact ⟨rfl, fun _ => rfl⟩
    · exact ⟨rfl, fun hno => absurd ⟨rfl, rfl⟩ hno⟩
  case subscribe =>
    obtain ⟨-, rfl⟩ := Prod.mk.inj (Except.ok.inj h)
    obtain ⟨-, haof, hrewrites⟩ := subscribeLoop_data fd (args.drop 1) s
    exact ⟨hrewrites, fun _ => haof⟩
  case unsubscribe =>
    obtain ⟨-, rfl⟩ := Prod.mk.inj (Except.ok.inj h)
    obtain ⟨-, haof, hrewrites⟩ := pubsubUnsubscribe_data fd args s
    exact ⟨hrewrites, fun _ => haof⟩
  case publish =>
    obtain ⟨-, rfl⟩ := Prod.mk.inj (Except.ok.inj h)
    obtain ⟨-, haof, hrewrites⟩ := pubsubPublish_data args s
    exact ⟨hrewrites, fun _ => haof⟩
  all_goals first
    | (obtain ⟨-, rfl⟩ := Prod.mk.inj (Except.ok.inj h)
       exact ⟨rfl, fun _ => rfl⟩)
    | (simp only [Call.run, onStore] at h
       split at h
       · obtain ⟨-, rfl⟩ := Prod.mk.inj (Except.ok.inj h)
         exact ⟨rfl, fun _ => rfl⟩
       · cases h)

theorem subscribeLoop_size : ∀ (channels : List Bytes) (s : Server),
    (subscribeLoop fd channels s).2.lastRewriteSize = s.lastRewriteSize
  | [], _ => rfl
  | channel :: channels, s => by
    unfold subscribeLoop
    dsimp only
    split_ifs
    · rfl
    · exact subscribeLoop_size channels _

theorem unsubscribeLoop_size : ∀ (channels : List Bytes) (s : Server),
    (unsubscribeLoop fd channels s).2.lastRewriteSize = s.lastRewriteSize
  | [], _ => rfl
  | _ :: channels, _ => unsubscribeLoop_size channels _

theorem pubsubUnsubscribe_size (fd : ℤ) (args : List Bytes) (s : Server) :
    (pubsubUnsubscribe fd args s).2.lastRewriteSize = s.lastRewriteSize := by
  unfold pubsubUnsubscribe
  dsimp only
  generalize (if args.length = 1 then _ else args.drop 1) = channels
  split_ifs
  · rfl
  · exact unsubscribeLoop_size _ s

theorem pubsubPublish_size (args : List Bytes) (s : Server) :
    (pubsubPublish args s).2.2.lastRewriteSize = s.lastRewriteSize := by
  unfold pubsubPublish
  split_ifs
  · rfl
  · dsimp only
    split <;> rfl

theorem pubsubCleanupClient_size (fd : ℤ) (s : Server) :
    (pubsubCleanupClient fd s).lastRewriteSize = s.lastRewriteSize := by
  have hfold : ∀ (channels : List Bytes) (s : Server), (channels.foldl
      (fun s channel => s.setChannel channel ((s.subscribers channel).erase fd)) s).lastRewriteSize =
        s.lastRewriteSize := by
    intro channels
    induction channels with
    | nil => exact fun s => rfl
    | cons channel channels ih => exact fun s => ih _
  unfold pubsubCleanupClient
  split
  · rfl
  · exact hfold _ s

/-- Only a rewrite sets the size that the next one waits for. -/
theorem Call.run_size {c : Call} {o : Sends × Bool} (h : c.run now fd cmd args s = .ok (o, s')) :
    s'.lastRewriteSize = s.lastRewriteSize := by
  cases c
  case flushdb =>
    have hf := Except.ok.inj h
    unfold commandFlushdb at hf
    split_ifs at hf <;> obtain ⟨-, rfl⟩ := Prod.mk.inj hf <;> rfl
  case subscribe =>
    obtain ⟨-, rfl⟩ := Prod.mk.inj (Except.ok.inj h)
    exact subscribeLoop_size _ s
  case unsubscribe =>
    obtain ⟨-, rfl⟩ := Prod.mk.inj (Except.ok.inj h)
    exact pubsubUnsubscribe_size fd args s
  case publish =>
    obtain ⟨-, rfl⟩ := Prod.mk.inj (Except.ok.inj h)
    exact pubsubPublish_size args s
  all_goals first
    | (obtain ⟨-, rfl⟩ := Prod.mk.inj (Except.ok.inj h)
       rfl)
    | (simp only [Call.run, onStore] at h
       split at h
       · obtain ⟨-, rfl⟩ := Prod.mk.inj (Except.ok.inj h)
         rfl
       · cases h)

theorem rewriteAof_rewrites {env : Env} (h : rewriteAof env s = .ok s') :
    s'.rewrites = s.rewrites + 1 := by
  unfold rewriteAof at h
  dsimp only at h
  by_cases ho : env.disk.opens
  · rw [if_pos ho] at h
    rcases hw : s.store.walk s.store.kvStore.size s.store.tail with f | nodes <;> rw [hw] at h
    · cases h
    change (uncaught (rewriteText env.now nodes) >>= _) = _ at h
    rcases ht : uncaught (rewriteText env.now nodes) with f | text <;> rw [ht] at h
    · cases h
    simp only [bind, Except.bind] at h
    split_ifs at h <;> cases Except.ok.inj h <;> rfl
  · rw [if_neg ho] at h
    cases Except.ok.inj h
    rfl

end Commands

namespace Process

/-- The server as the commands see it. -/
def logical (p : Process) : Server := p.server.logical p.pending

/-- The size check leads to a rewrite. -/
def Due (m : Moment) (p : Process) : Prop :=
  5 ≤ (m.steady - p.lastSizeCheck.getD m.started).tdiv 1000000000 ∧
    rewriteThreshold < p.server.aof.length ∧ p.server.lastRewriteSize * 2 < p.server.aof.length

section File

variable {m : Moment} {p p' : Process} {f : Fault} {args : List Bytes}

theorem checkAndRewriteAof_due (h : p.Due m) :
    p.checkAndRewriteAof m = { p with lastSizeCheck := some m.steady }.rewriteAof m := by
  unfold checkAndRewriteAof
  rw [if_neg (not_lt.2 h.1)]
  exact if_pos h.2

theorem checkAndRewriteAof_not_due (h : ¬ p.Due m) :
    ∃ t, p.checkAndRewriteAof m = .ok { p with lastSizeCheck := some t } := by
  unfold checkAndRewriteAof
  dsimp only
  split_ifs with helapsed hsize
  · exact ⟨_, rfl⟩
  · exact absurd ⟨not_lt.1 helapsed, hsize⟩ h
  · exact ⟨_, rfl⟩

theorem appendToAof_logical (m : Moment) (args : List Bytes) (p : Process) :
    DrutaDB.appendToAof args p.logical = (p.appendToAof m args).map logical := by
  rcases args with _ | ⟨a, as⟩
  · rfl
  unfold DrutaDB.appendToAof appendToAof
  dsimp only
  split_ifs
  · rcases formatRespCommand (a :: as) with e | resp
    · rfl
    · have hwrite : (p.write m.spill resp).logical =
          { p.logical with aof := p.logical.aof ++ resp } := by
        simp [logical, Server.logical, write]
      exact congrArg Except.ok hwrite.symm
  · rfl

theorem rewriteAof_logical (env : Env) (hnow : env.now = m.now) (hdisk : env.disk = m.disk) :
    DrutaDB.rewriteAof env p.logical = (p.rewriteAof m).map logical := by
  obtain ⟨now, since, disk⟩ := env
  obtain rfl : now = m.now := hnow
  obtain rfl : disk = m.disk := hdisk
  unfold rewriteAof DrutaDB.rewriteAof
  dsimp only [flush]
  by_cases ho : m.disk.opens
  · simp only [if_pos ho]
    have hstore : p.logical.store = p.server.store := rfl
    rw [hstore]
    rcases p.server.store.walk p.server.store.kvStore.size p.server.store.tail with f | nodes
    · rfl
    simp only [bind, Except.bind]
    rcases uncaught (rewriteText m.now nodes) with f | text
    · rfl
    by_cases hr : m.disk.renames
    · simp only [if_pos hr]
      simp [logical, Server.logical, pure, Except.pure, Except.map]
    · simp only [if_neg hr]
      simp [logical, Server.logical, pure, Except.pure, Except.map]
  · simp only [if_neg ho]
    rfl

/-- What the check leaves of the file is not less than what is on disk. -/
theorem le_length_logical (p : Process) : p.server.aof.length ≤ p.logical.aof.length := by
  simp [logical, Server.logical]

/-- Where the file is large enough on disk, it is with what the stream holds back. -/
theorem checkAndRewriteAof_logical (env : Env) (hnow : env.now = m.now) (hdisk : env.disk = m.disk)
    (hcheck : env.sinceCheck = 5 ∧ p.Due m ∨ env.sinceCheck = 0 ∧ ¬ p.Due m) :
    DrutaDB.checkAndRewriteAof env p.logical = (p.checkAndRewriteAof m).map logical := by
  rcases hcheck with ⟨hsince, hdue⟩ | ⟨hsince, hdue⟩
  · have hle := p.le_length_logical
    have hsize : rewriteThreshold < p.logical.aof.length ∧
        p.logical.lastRewriteSize * 2 < p.logical.aof.length :=
      ⟨hdue.2.1.trans_le hle, hdue.2.2.trans_le hle⟩
    rw [checkAndRewriteAof_due hdue, DrutaDB.checkAndRewriteAof, if_neg (by omega), if_pos hsize]
    exact rewriteAof_logical (p := { p with lastSizeCheck := some m.steady }) env hnow hdisk
  · obtain ⟨t, ht⟩ := checkAndRewriteAof_not_due hdue
    rw [ht, DrutaDB.checkAndRewriteAof, if_pos (by omega)]
    rfl

/-- What handling a command leaves to the loop around it. -/
structure Kept (p p' : Process) : Prop where
  record : p'.record = p.record
  sent : p'.sent = p.sent
  lastFlush : p'.lastFlush = p.lastFlush
  parsers : ∀ fd, (p'.server.client fd).parser = (p.server.client fd).parser

theorem Kept.trans {p₀ : Process} (h : Kept p₀ p) (h' : Kept p p') : Kept p₀ p' :=
  ⟨h'.record.trans h.record, h'.sent.trans h.sent, h'.lastFlush.trans h.lastFlush,
    fun fd => (h'.parsers fd).trans (h.parsers fd)⟩

theorem appendToAof_kept (h : p.appendToAof m args = .ok p') :
    Kept p p' ∧ p'.server.rewrites = p.server.rewrites := by
  rcases args with _ | ⟨a, as⟩
  · obtain rfl := Except.ok.inj h
    exact ⟨⟨rfl, rfl, rfl, fun _ => rfl⟩, rfl⟩
  unfold appendToAof at h
  dsimp only at h
  split_ifs at h
  · rcases hf : formatRespCommand (a :: as) with e | resp <;> rw [hf] at h
    · cases h
    · obtain rfl := Except.ok.inj h
      exact ⟨⟨rfl, rfl, rfl, fun _ => rfl⟩, rfl⟩
  · obtain rfl := Except.ok.inj h
    exact ⟨⟨rfl, rfl, rfl, fun _ => rfl⟩, rfl⟩

theorem rewriteAof_kept (h : p.rewriteAof m = .ok p') :
    Kept p p' ∧ p'.server.rewrites = p.server.rewrites + 1 := by
  unfold rewriteAof at h
  rcases hs : DrutaDB.rewriteAof { now := m.now, disk := m.disk }
    (if m.disk.opens then p.flush else p).server with f | s <;> simp only [hs, bind, Except.bind] at h
  · cases h
  have hrewrites := rewriteAof_rewrites hs
  have hclient := (rewriteAof_maps hs).client
  obtain rfl := Except.ok.inj h
  split_ifs at hrewrites hclient ⊢
  · exact ⟨⟨rfl, rfl, rfl, fun fd => congrArg Client.parser (hclient fd)⟩, hrewrites⟩
  · exact ⟨⟨rfl, rfl, rfl, fun fd => congrArg Client.parser (hclient fd)⟩, hrewrites⟩

theorem checkAndRewriteAof_kept (h : p.checkAndRewriteAof m = .ok p') :
    Kept p p' ∧ (p.server.rewrites < p'.server.rewrites ↔ p.Due m) := by
  by_cases hdue : p.Due m
  · rw [checkAndRewriteAof_due hdue] at h
    obtain ⟨hkept, hrewrites⟩ := rewriteAof_kept h
    refine ⟨⟨hkept.record, hkept.sent, hkept.lastFlush, hkept.parsers⟩, iff_of_true ?_ hdue⟩
    dsimp only at hrewrites
    omega
  · obtain ⟨t, ht⟩ := checkAndRewriteAof_not_due hdue
    obtain rfl := Except.ok.inj (ht.symm.trans h)
    exact ⟨⟨rfl, rfl, rfl, fun _ => rfl⟩, iff_of_false (lt_irrefl _) hdue⟩

end File

section Handle

variable {m : Moment} {fd : ℤ} {args : List Bytes} {p p' : Process} {sends : Sends} {f : Fault}

/-- What follows a successful command. -/
theorem logged_logical (m : Moment) (args : List Bytes) (p : Process) :
    ∃ env : Env, env.now = m.now ∧ env.disk = m.disk ∧
      (DrutaDB.appendToAof args p.logical >>= DrutaDB.checkAndRewriteAof env) =
        (p.appendToAof m args >>= checkAndRewriteAof m).map logical ∧
      ∀ p', (p.appendToAof m args >>= checkAndRewriteAof m) = .ok p' → Kept p p' ∧
        env.sinceCheck = if p.server.rewrites < p'.server.rewrites then 5 else 0 := by
  rw [appendToAof_logical]
  rcases hq : p.appendToAof m args with f | q
  · exact ⟨{ now := m.now, disk := m.disk }, rfl, rfl, rfl, fun p' h => by cases h⟩
  obtain ⟨hkept, hsame⟩ := appendToAof_kept hq
  by_cases hdue : q.Due m
  · refine ⟨{ now := m.now, sinceCheck := 5, disk := m.disk }, rfl, rfl, ?_, fun p' h => ?_⟩
    · exact checkAndRewriteAof_logical { now := m.now, sinceCheck := 5, disk := m.disk } rfl rfl
        (.inl ⟨rfl, hdue⟩)
    · obtain ⟨hkept', hiff⟩ := checkAndRewriteAof_kept h
      rw [hsame] at hiff
      exact ⟨hkept.trans hkept', (if_pos (hiff.2 hdue)).symm⟩
  · refine ⟨{ now := m.now, sinceCheck := 0, disk := m.disk }, rfl, rfl, ?_, fun p' h => ?_⟩
    · exact checkAndRewriteAof_logical { now := m.now, sinceCheck := 0, disk := m.disk } rfl rfl
        (.inr ⟨rfl, hdue⟩)
    · obtain ⟨hkept', hiff⟩ := checkAndRewriteAof_kept h
      rw [hsame] at hiff
      exact ⟨hkept.trans hkept', (if_neg (mt hiff.1 hdue)).symm⟩

/-- A process handles a command as the server does. -/
theorem handleCommand_logical (m : Moment) (fd : ℤ) (args : List Bytes) (p : Process) :
    ∃ env : Env, env.now = m.now ∧ env.disk = m.disk ∧
      DrutaDB.handleCommand env fd args p.logical =
        ((p.handleCommand m fd args).1, (p.handleCommand m fd args).2.map logical) ∧
      ∀ p', (p.handleCommand m fd args).2 = .ok p' → Kept p p' ∧
        env.sinceCheck = if p.server.rewrites < p'.server.rewrites then 5 else 0 := by
  rcases args with _ | ⟨a, as⟩
  · exact ⟨{ now := m.now, disk := m.disk }, rfl, rfl, rfl, fun p' h => by cases h⟩
  have hensure : p.logical.ensureClient fd = (p.server.ensureClient fd).logical p.pending :=
    (Server.logical_ensureClient _ _ _).symm
  unfold DrutaDB.handleCommand handleCommand
  simp only [hensure, turnedAway_logical, Call.run_logical]
  by_cases ht : turnedAway (p.server.ensureClient fd) fd (toUpper a)
  · simp only [if_pos ht]
    refine ⟨{ now := m.now, disk := m.disk }, rfl, rfl, rfl, fun p' h => ?_⟩
    obtain rfl := Except.ok.inj h
    exact ⟨⟨rfl, rfl, rfl, parser_setClient _ rfl⟩, (if_neg (lt_irrefl _)).symm⟩
  simp only [if_neg ht]
  rcases hrun : (route (toUpper a) (a :: as).length).run m.now fd (toUpper a) (a :: as)
      (p.server.ensureClient fd) with f | ⟨⟨sends, success⟩, s⟩
  · refine ⟨{ now := m.now, disk := m.disk }, rfl, rfl, ?_, fun p' h => ?_⟩
    · simp only [hrun]
      rfl
    · cases h
  have hsame : s.rewrites = p.server.rewrites :=
    (Call.run_file (s := p.server.ensureClient fd) hrun).1
  have hparser : ∀ fd', (s.client fd').parser = (p.server.client fd').parser := fun fd' => by
    rw [(Call.run_maps hrun).client]
    exact (parser_pubsub _ fd').trans (parser_setClient _ rfl fd')
  by_cases hlog : fd ≠ -1 ∧ success
  · obtain ⟨env, hnow, hdisk, heq, hkept⟩ := logged_logical m (a :: as) { p with
      server := s
      pending := (route (toUpper a) (a :: as).length).holds p.pending success }
    refine ⟨env, hnow, hdisk, ?_, fun p' h => ?_⟩
    · simp only [hnow, hrun, Except.map, if_pos hlog]
      exact congrArg (Prod.mk sends) heq
    · simp only [if_pos hlog] at h
      obtain ⟨⟨hrecord, hsent, hflush, hparsers⟩, hsince⟩ := hkept p' h
      rw [hsame] at hsince
      exact ⟨⟨hrecord, hsent, hflush, fun fd' => (hparsers fd').trans (hparser fd')⟩, hsince⟩
  · refine ⟨{ now := m.now, disk := m.disk }, rfl, rfl, ?_, fun p' h => ?_⟩
    · simp only [hrun, Except.map, if_neg hlog]
      rfl
    · simp only [if_neg hlog] at h
      obtain rfl := Except.ok.inj h
      refine ⟨⟨rfl, rfl, rfl, hparser⟩, (if_neg ?_).symm⟩
      dsimp only
      rw [hsame]
      exact lt_irrefl _

/-- What a command leaves before it is logged, and whether it is. -/
theorem handleCommand_ok {m : Moment} {fd : ℤ} {args : List Bytes} {p p' : Process}
    (h : (p.handleCommand m fd args).2 = .ok p') :
    ∃ q : Process, q.lastSizeCheck = p.lastSizeCheck ∧ q.server.rewrites = p.server.rewrites ∧
      (q.server.aof = p.server.aof ∧ q.pending = p.pending ∨
        q.pending = [] ∧ callOf args = .flushdb) ∧
      (p' = q ∨ ∃ u, q.appendToAof m args = .ok u ∧ u.checkAndRewriteAof m = .ok p') := by
  rcases args with _ | ⟨a, as⟩
  · cases h
  unfold handleCommand at h
  dsimp only at h
  by_cases ht : turnedAway (p.server.ensureClient fd) fd (toUpper a)
  · rw [if_pos ht] at h
    exact ⟨p', Except.ok.inj h ▸ rfl, Except.ok.inj h ▸ rfl, .inl (Except.ok.inj h ▸ ⟨rfl, rfl⟩),
      .inl rfl⟩
  rw [if_neg ht] at h
  rcases hrun : (route (toUpper a) (a :: as).length).run m.now fd (toUpper a) (a :: as)
      (p.server.ensureClient fd) with f | ⟨⟨sends, success⟩, s⟩ <;> rw [hrun] at h
  · cases h
  obtain ⟨hrewrites, haof⟩ := Call.run_file (s := p.server.ensureClient fd) hrun
  dsimp only at h
  refine ⟨{ p with
    server := s
    pending := if route (toUpper a) (a :: as).length = .flushdb ∧ success then []
      else p.pending }, rfl, hrewrites, ?_, ?_⟩
  · by_cases hflush : route (toUpper a) (a :: as).length = .flushdb ∧ success
    · exact .inr ⟨if_pos hflush, hflush.1⟩
    · exact .inl ⟨haof hflush, if_neg hflush⟩
  · by_cases hlog : fd ≠ -1 ∧ success
    · rw [if_pos hlog] at h
      refine .inr ?_
      generalize (_ : Process).appendToAof m (a :: as) = r at h
      rcases r with f | u
      · cases h
      · exact ⟨u, rfl, h⟩
    · rw [if_neg hlog] at h
      exact .inl (Except.ok.inj h).symm

end Handle

section Settles

variable {m : Moment} {fd : ℤ} {args : List Bytes} {p p' : Process}

/-- All is written that should be in the file, or what is in it stays there and no rewrite gets to
the file. -/
def Settles (opens : Bool) (p p' : Process) : Prop :=
  p'.pending = [] ∨ p.server.aof <+: p'.server.aof ∧
    (p'.server.rewrites = p.server.rewrites ∨ opens = false)

theorem appendToAof_prefix (h : p.appendToAof m args = .ok p') :
    p.server.aof <+: p'.server.aof := by
  rcases args with _ | ⟨a, as⟩
  · exact Except.ok.inj h ▸ List.prefix_rfl
  unfold appendToAof at h
  dsimp only at h
  split_ifs at h
  · rcases hf : formatRespCommand (a :: as) with e | resp <;> rw [hf] at h
    · cases h
    · exact Except.ok.inj h ▸ List.prefix_append _ _
  · exact Except.ok.inj h ▸ List.prefix_rfl

theorem appendToAof_flushdb (hflush : callOf args = .flushdb) (h : p.appendToAof m args = .ok p') :
    p' = p := by
  rcases args with _ | ⟨a, as⟩
  · exact (Except.ok.inj h).symm
  have hname : toUpper a = ascii Call.flushdb.name := (of_route (by decide) hflush).1
  have hno : isValid (ascii Call.flushdb.name) = false := by decide
  unfold appendToAof at h
  dsimp only at h
  rw [hname, hno] at h
  exact (Except.ok.inj h).symm

theorem checkAndRewriteAof_file (h : p.checkAndRewriteAof m = .ok p') :
    p'.pending = [] ∨ p'.pending = p.pending ∧ p'.server.aof = p.server.aof ∧
      (p'.server.rewrites = p.server.rewrites ∨ m.disk.opens = false) := by
  by_cases hdue : p.Due m
  · rw [checkAndRewriteAof_due hdue] at h
    unfold rewriteAof at h
    dsimp only at h
    by_cases ho : m.disk.opens
    · simp only [if_pos ho] at h
      generalize DrutaDB.rewriteAof _ _ = r at h
      rcases r with f | s
      · cases h
      · exact .inl (Except.ok.inj h ▸ rfl)
    · have hsame : DrutaDB.rewriteAof { now := m.now, disk := m.disk } p.server =
          .ok { p.server with rewrites := p.server.rewrites + 1 } := if_neg ho
      simp only [if_neg ho, hsame] at h
      exact .inr (Except.ok.inj h ▸ ⟨rfl, rfl, .inr (Bool.eq_false_iff.2 ho)⟩)
  · obtain ⟨t, ht⟩ := checkAndRewriteAof_not_due hdue
    exact .inr (Except.ok.inj (ht.symm.trans h) ▸ ⟨rfl, rfl, .inl rfl⟩)

theorem handleCommand_settles (h : (p.handleCommand m fd args).2 = .ok p') :
    Settles m.disk.opens p p' := by
  obtain ⟨q, -, hrewrites, hfile, rfl | ⟨u, ha, hcheck⟩⟩ := handleCommand_ok h
  · exact hfile.elim (fun hq => .inr ⟨hq.1 ▸ List.prefix_rfl, .inl hrewrites⟩) fun hq => .inl hq.1
  · have hu := (appendToAof_kept ha).2.trans hrewrites
    rcases hfile with ⟨haof, -⟩ | ⟨hheld, hflush⟩
    · rcases checkAndRewriteAof_file hcheck with hnone | ⟨-, hsame, hopens⟩
      · exact .inl hnone
      · refine .inr ⟨?_, hopens.imp_left fun hp' => hp'.trans hu⟩
        rw [hsame, ← haof]
        exact appendToAof_prefix ha
    · obtain rfl := appendToAof_flushdb hflush ha
      rcases checkAndRewriteAof_file hcheck with hnone | ⟨hsame, -⟩
      · exact .inl hnone
      · exact .inl (hsame.trans hheld)

end Settles

end Process

/-! ## Runs -/

/-- What an event sends. -/
def Event.sends (s : Server) : Event → Sends
  | .command env fd args => (handleCommand env fd args s).1
  | _ => []

/-- What a run sends, up to its first failure. -/
def sendsOf (s : Server) : List Event → Sends
  | [] => []
  | e :: events => e.sends s ++
    match s.step e with
    | .ok s' => sendsOf s' events
    | .error _ => []

/-- A round of the loop, one thing after the other. -/
inductive Tick
  | accept (fd : ℤ)
  /-- Bytes are received. -/
  | hear (fd : ℤ)
  | byte (fd : ℤ) (b : Moment × UInt8)
  | close (fd : ℤ)
  | flush (started now : ℤ)

def Process.tick (p : Process) : Tick → Except Fault Process
  | .accept fd => p.report (.accept fd)
  | .hear fd => .ok { p with server := p.server.ensureClient fd }
  | .byte fd b => (p.receiveByte fd b).map Prod.snd
  | .close fd => p.report (.close fd)
  | .flush started now => .ok (p.flushAof started now)

def Report.ticks : Report → List Tick
  | .accept fd => [.accept fd]
  | .recv fd chunk => .hear fd :: chunk.map (.byte fd)
  | .close fd => [.close fd]

def Round.ticks (r : Round) : List Tick := r.reports.flatMap Report.ticks ++ [.flush r.started r.now]

/-- What a tick opens, closes or comes in on. -/
def Tick.events : Tick → List Event
  | .accept fd => [.connect fd]
  | .hear fd => [.command {} fd []]
  | .byte fd _ => [.command {} fd []]
  | .close fd => [.disconnect fd]
  | .flush _ _ => []

/-- What the rounds open, close and come in on. -/
def reported (rounds : List Round) : List Event :=
  (rounds.flatMap Round.ticks).flatMap Tick.events

/-- An event without what a timer made of it. -/
def Event.untimed : Event → Event
  | .command env fd args => .command { env with sinceCheck := 0 } fd args
  | e => e

section Untimed

variable {s s' : Server} {e : Event} {env : Env} {args : List Bytes}

theorem checkAndRewriteAof_eq (h : checkAndRewriteAof env s = .ok s') :
    s' = s ∨ s.lastRewriteSize * 2 < s.aof.length ∧ rewriteAof env s = .ok s' := by
  unfold checkAndRewriteAof at h
  split_ifs at h with hsince hsize
  · exact .inl (Except.ok.inj h).symm
  · exact .inr ⟨hsize.2, h⟩
  · exact .inl (Except.ok.inj h).symm

theorem appendToAof_sizes (h : appendToAof args s = .ok s') :
    s'.rewrites = s.rewrites ∧ s'.lastRewriteSize = s.lastRewriteSize := by
  unfold appendToAof at h
  split at h
  · exact Except.ok.inj h ▸ ⟨rfl, rfl⟩
  · split_ifs at h
    · rename_i a as hvalid
      rcases hf : formatRespCommand (a :: as) with x | text <;> rw [hf] at h
      · cases h
      · exact Except.ok.inj h ▸ ⟨rfl, rfl⟩
    · exact Except.ok.inj h ▸ ⟨rfl, rfl⟩

/-- A step is one at which the size is not checked, and after that at most a rewrite. -/
theorem step_untimed (h : s.step e = .ok s') :
    ∃ s₁, s.step e.untimed = .ok s₁ ∧ s₁.rewrites = s.rewrites ∧
      s₁.lastRewriteSize = s.lastRewriteSize ∧
      (s' = s₁ ∨ ∃ env fd args, e = .command env fd args ∧
        s₁.lastRewriteSize * 2 < s₁.aof.length ∧ rewriteAof env s₁ = .ok s') := by
  rcases e with fd | fd | ⟨env, fd, args⟩
  · exact ⟨s', h, Except.ok.inj h ▸ rfl, Except.ok.inj h ▸ rfl, .inl rfl⟩
  · exact ⟨s', h, Except.ok.inj h ▸ (pubsubCleanupClient_data fd s).2.2,
      Except.ok.inj h ▸ pubsubCleanupClient_size fd s, .inl rfl⟩
  rcases args with _ | ⟨a, as⟩
  · cases h
  simp only [Server.step, Event.untimed, handleCommand] at h ⊢
  by_cases ht : turnedAway (s.ensureClient fd) fd (toUpper a)
  · rw [if_pos ht] at h ⊢
    exact ⟨s', h, Except.ok.inj h ▸ rfl, Except.ok.inj h ▸ rfl, .inl rfl⟩
  rw [if_neg ht] at h ⊢
  rcases hrun : (route (toUpper a) (a :: as).length).run env.now fd (toUpper a) (a :: as)
      (s.ensureClient fd) with f | ⟨⟨sends, success⟩, t⟩ <;> rw [hrun] at h
  · cases h
  have hrewrites : t.rewrites = s.rewrites := (Call.run_file (s := s.ensureClient fd) hrun).1
  have hsize : t.lastRewriteSize = s.lastRewriteSize :=
    Call.run_size (s := s.ensureClient fd) hrun
  dsimp only at h ⊢
  by_cases hlog : fd ≠ -1 ∧ success
  · rw [if_pos hlog] at h ⊢
    rcases ha : appendToAof (a :: as) t with f | u <;> rw [ha] at h
    · cases h
    obtain ⟨hu, husize⟩ := appendToAof_sizes ha
    refine ⟨u, rfl, hu.trans hrewrites, husize.trans hsize, ?_⟩
    exact (checkAndRewriteAof_eq h).imp id fun hr => ⟨env, fd, a :: as, rfl, hr⟩
  · rw [if_neg hlog] at h ⊢
    exact ⟨s', h, Except.ok.inj h ▸ hrewrites, Except.ok.inj h ▸ hsize, .inl rfl⟩

end Untimed

/-- The events that are complete in what came in, with a parser for each connection and nothing
else. -/
structure Decoder where
  parsers : ℤ → RespParser := fun _ => {}
  events : List Event := []

def Decoder.step (d : Decoder) : Tick → Except Fault Decoder
  | .accept fd =>
    .ok { parsers := Function.update d.parsers fd {}, events := d.events ++ [.connect fd] }
  | .byte fd b =>
    match (d.parsers fd).step b.2 with
    | .error e => .error (.uncaught e)
    | .ok (none, parser) => .ok { d with parsers := Function.update d.parsers fd parser }
    | .ok (some args, parser) => .ok
        { parsers := Function.update d.parsers fd parser
          events := d.events ++ [.command { now := b.1.now, disk := b.1.disk } fd args] }
  | .close fd => .ok { d with events := d.events ++ [.disconnect fd] }
  | .hear _ => .ok d
  | .flush _ _ => .ok d

/-- Where the event leads to a rewrite, the temporary file is opened. -/
def Event.opens : Event → Bool
  | .command env _ _ => env.disk.opens
  | _ => true

/-- A process takes no more than one step of the server. -/
inductive Advances (p p' : Process) : Prop
  | stays (hrecord : p'.record = p.record) (hlogical : p'.logical = p.logical)
      (hfile : p.server.aof <+: p'.server.aof)
  | steps {e : Event} (hrecord : p'.record = p.record ++ [e])
      (hstep : p.logical.step e = .ok p'.logical) (hfile : Process.Settles e.opens p p')

/-- What is on record is what came in, took the server to where the process is, and sent what the
process sent. -/
structure Refines (s₀ : Server) (events : List Event) (d : Decoder) (p : Process) : Prop where
  orderly : Orderly p.record
  opens : ∀ fd, isOpen p.record fd = isOpen events fd
  mem : ∀ fd, isOpen events fd = true → fd ∈ p.server.clientsMap
  parsers : ∀ fd, isOpen events fd = true → d.parsers fd = (p.server.client fd).parser
  decoded : p.record.map Event.untimed = d.events
  runs : run Server.step s₀ p.record = .ok p.logical
  sent : p.sent = sendsOf s₀ p.record

section Steps

variable {s s' s₀ : Server} {events : List Event} {e : Event} {d : Decoder} {p p' : Process}
  {fd fd' : ℤ}

theorem sendsOf_append : ∀ {s : Server} (es ds : List Event), run Server.step s es = .ok s' →
    sendsOf s (es ++ ds) = sendsOf s es ++ sendsOf s' ds
  | s, [], ds, h => by
    obtain rfl := Except.ok.inj h
    rfl
  | s, e :: es, ds, h => by
    obtain ⟨u, hu, h⟩ := run_cons h
    simp only [List.cons_append, sendsOf, hu, List.append_assoc]
    rw [sendsOf_append es ds h]

theorem ensureClient_of_mem (h : fd ∈ s.clientsMap) : s.ensureClient fd = s := by
  unfold Server.ensureClient Server.setClient
  congr 1
  refine Std.ExtTreeMap.ext_getElem? fun fd' => ?_
  rw [Std.ExtTreeMap.getElem?_insert]
  split_ifs with hfd
  · rw [compare_eq_iff_eq] at hfd
    rw [← hfd, Server.client, Std.ExtTreeMap.getElem?_eq_some_getElem h]
    rfl
  · rfl

theorem mem_logical {held : Bytes} : fd ∈ (s.logical held).clientsMap ↔ fd ∈ s.clientsMap :=
  Std.ExtTreeMap.mem_map

/-- A parser cannot be told from the commands. -/
theorem Process.logical_setParser (parser : RespParser) (h : fd ∈ p.server.clientsMap) :
    (p.setParser fd parser).logical = p.logical := by
  have hset : (p.setParser fd parser).logical = p.logical.ensureClient fd := by
    unfold Process.setParser Process.logical
    dsimp only
    rw [Server.logical_setClient, Server.ensureClient, Server.client_logical]
  rw [hset]
  exact ensureClient_of_mem (mem_logical.2 h)

/-- The next event of a record. -/
theorem Refines.snoc {q : Process} (h : Refines s₀ events d p) (he : e.Follows p.record)
    (hstep : p.logical.step e = .ok q.logical) (hrecord : q.record = p.record ++ [e])
    (hsent : q.sent = p.sent ++ e.sends p.logical) :
    Orderly q.record ∧ q.record.map Event.untimed = d.events ++ [e.untimed] ∧
      run Server.step s₀ q.record = .ok q.logical ∧ q.sent = sendsOf s₀ q.record := by
  rw [hrecord, hsent]
  refine ⟨orderly_snoc _ _ h.orderly he, ?_, ?_, ?_⟩
  · rw [List.map_append, h.decoded]
    rfl
  · rw [run_append _ _ h.runs, run_cons_ok hstep]
    rfl
  · rw [sendsOf_append _ _ h.runs, ← h.sent]
    simp [sendsOf, hstep]

/-- What comes in on a connection opens and closes none. -/
theorem Refines.command (h : Refines s₀ events d p) :
    Refines s₀ (events ++ [.command {} fd []]) d p := by
  have hopen : ∀ fd', isOpen (events ++ [.command {} fd []]) fd' = isOpen events fd' :=
    fun fd' => isOpen_snoc _ _ _
  exact ⟨h.orderly, fun fd' => (h.opens fd').trans (hopen fd').symm,
    fun fd' hfd' => h.mem fd' ((hopen fd').symm.trans hfd'),
    fun fd' hfd' => h.parsers fd' ((hopen fd').symm.trans hfd'), h.decoded, h.runs, h.sent⟩

/-- Commands come in on connections that are open. -/
theorem isOpen_of_follows (h : (Event.command {} fd []).Follows events) :
    isOpen events fd = true :=
  h.resolve_right fun hc => by
    have hlogs : ¬ (callOf []).logs := by decide
    exact hlogs hc.2

/-- The parser of a connection, kept apart and in the process. -/
theorem parsers_setParser {parsers : ℤ → RespParser} (parser : RespParser)
    (h : parsers fd' = (p.server.client fd').parser) :
    Function.update parsers fd parser fd' = ((p.setParser fd parser).server.client fd').parser := by
  change _ = ((p.server.setClient fd { p.server.client fd with parser }).client fd').parser
  rw [Server.client_setClient]
  split_ifs with hfd
  · rw [← hfd, Function.update_self]
  · rw [Function.update_of_ne (Ne.symm hfd), h]

theorem Refines.receiveByte (h : Refines s₀ events d p) (hfd : isOpen events fd = true)
    {b : Moment × UInt8} {o : Option (List Bytes)} (hb : p.receiveByte fd b = .ok (o, p')) :
    (∃ d', d.step (.byte fd b) = .ok d' ∧ Refines s₀ events d' p') ∧ Advances p p' := by
  have hmem := h.mem fd hfd
  simp only [Decoder.step, h.parsers fd hfd]
  unfold Process.receiveByte at hb
  rcases hp : (p.server.client fd).parser.step b.2 with x | ⟨_ | args, parser⟩ <;>
    simp only [hp] at hb
  · cases hb
  · obtain ⟨-, rfl⟩ := Prod.mk.inj (Except.ok.inj hb)
    have hlogical := Process.logical_setParser parser hmem
    refine ⟨⟨_, rfl, h.orderly, h.opens, fun fd' hfd' => mem_setClient.2 (.inr (h.mem fd' hfd')),
      fun fd' hfd' => parsers_setParser parser (h.parsers fd' hfd'), h.decoded, ?_, h.sent⟩,
      .stays rfl hlogical List.prefix_rfl⟩
    rw [hlogical]
    exact h.runs
  · obtain ⟨env, hnow, hdisk, heq, hkept⟩ := Process.handleCommand_logical b.1 fd args p
    rcases hc : p.handleCommand b.1 fd args with ⟨sends, f | q⟩ <;> rw [hc] at hb heq hkept
    · cases hb
    obtain ⟨-, rfl⟩ := Prod.mk.inj (Except.ok.inj hb)
    obtain ⟨⟨hrecord, hsent, -, hparsers⟩, hsince⟩ := hkept q rfl
    have hstep : (handleCommand env fd args p.logical).2 = .ok q.logical := by
      rw [heq]
      rfl
    have hq : ∀ fd', fd' ∈ q.server.clientsMap ↔ fd' = fd ∨ fd' ∈ p.server.clientsMap := by
      intro fd'
      have hiff : fd' ∈ q.logical.clientsMap ↔ fd' = fd ∨ fd' ∈ p.logical.clientsMap :=
        mem_handleCommand hstep
      rwa [Process.logical, mem_logical, Process.logical, mem_logical] at hiff
    have hlogical := Process.logical_setParser (p := q) parser ((hq fd).2 (.inl rfl))
    have hevent : Process.recorded b.1 fd args p q = .command env fd args := by
      obtain ⟨now, since, disk⟩ := env
      dsimp only at hnow hdisk hsince
      rw [Process.recorded, ← hsince, ← hnow, ← hdisk]
    have huntimed : (Event.command env fd args).untimed =
        .command { now := b.1.now, disk := b.1.disk } fd args := by
      rw [Event.untimed, hnow, hdisk]
    have hopen : ∀ fd', isOpen (p.record ++ [Process.recorded b.1 fd args p q]) fd' =
        isOpen events fd' := fun fd' => by
      rw [isOpen_snoc, hevent]
      exact h.opens fd'
    have hsettles : Process.Settles env.disk.opens p q := by
      rw [hdisk]
      exact Process.handleCommand_settles (congrArg Prod.snd hc)
    have hadvance : p.logical.step (.command env fd args) = .ok (q.setParser fd parser).logical :=
      hstep.trans (congrArg Except.ok hlogical.symm)
    obtain ⟨horder, hdecoded, hrun, hsends⟩ := h.snoc (q := { q.setParser fd parser with
        record := p.record ++ [Process.recorded b.1 fd args p q], sent := p.sent ++ sends })
      (e := .command env fd args) (.inl ((h.opens fd).trans hfd)) hadvance (by rw [← hevent])
      (by simp [Event.sends, heq])
    rw [huntimed] at hdecoded
    refine ⟨⟨_, rfl, horder, hopen, fun fd' hfd' => ?_, fun fd' hfd' => ?_, hdecoded, hrun, hsends⟩,
      .steps (by rw [← hevent]) hadvance hsettles⟩
    · exact mem_setClient.2 (.inr ((hq fd').2 (.inr (h.mem fd' hfd'))))
    · exact parsers_setParser parser ((h.parsers fd' hfd').trans (hparsers fd').symm)

theorem Refines.accept (h : Refines s₀ events d p) (he : (Event.connect fd).Follows events)
    (hp : p.report (.accept fd) = .ok p') :
    (∃ d', d.step (.accept fd) = .ok d' ∧ Refines s₀ (events ++ [.connect fd]) d' p') ∧
      Advances p p' := by
  obtain rfl := Except.ok.inj hp
  have hlogical := Server.logical_setClient p.pending p.server fd {}
  obtain ⟨horder, hdecoded, hruns, hsent⟩ := h.snoc (e := .connect fd) (q := { p with
      server := p.server.setClient fd {}, record := p.record ++ [.connect fd] })
    ⟨he.1, (h.opens fd).trans he.2⟩ (congrArg Except.ok hlogical.symm) rfl
    (List.append_nil _).symm
  have hopen : ∀ fd', isOpen (events ++ [.connect fd]) fd' = true ↔
      isOpen events fd' = true ∨ fd = fd' := fun fd' => by
    rw [isOpen_snoc]
    simp only [Bool.or_eq_true, decide_eq_true_eq]
  refine ⟨⟨_, rfl, horder, fun fd' => ?_, fun fd' hfd' => ?_, fun fd' hfd' => ?_, hdecoded, hruns,
    hsent⟩, .steps rfl (congrArg Except.ok hlogical.symm)
      (.inr ⟨List.prefix_rfl, .inl rfl⟩)⟩
  · rw [isOpen_snoc, isOpen_snoc, h.opens]
  · exact mem_setClient.2 (((hopen fd').1 hfd').elim (fun ho => .inr (h.mem fd' ho))
      fun heq => .inl heq.symm)
  · change Function.update d.parsers fd {} fd' = ((p.server.setClient fd {}).client fd').parser
    rw [Server.client_setClient]
    split_ifs with hfd
    · rw [← hfd, Function.update_self]
    · rw [Function.update_of_ne (Ne.symm hfd)]
      exact h.parsers fd' (((hopen fd').1 hfd').resolve_right hfd)

theorem Refines.close (h : Refines s₀ events d p) (he : (Event.disconnect fd).Follows events)
    (hp : p.report (.close fd) = .ok p') :
    (∃ d', d.step (.close fd) = .ok d' ∧ Refines s₀ (events ++ [.disconnect fd]) d' p') ∧
      Advances p p' := by
  obtain rfl := Except.ok.inj hp
  have hlogical : p.logical.step (.disconnect fd) = .ok (Server.logical p.pending
      { pubsubCleanupClient fd p.server with
        clientsMap := (pubsubCleanupClient fd p.server).clientsMap.erase fd }) := by
    rw [Server.logical_erase, ← pubsubCleanupClient_logical]
    rfl
  obtain ⟨horder, hdecoded, hruns, hsent⟩ := h.snoc (e := .disconnect fd) (q := { p with
      server := { pubsubCleanupClient fd p.server with
        clientsMap := (pubsubCleanupClient fd p.server).clientsMap.erase fd }
      record := p.record ++ [.disconnect fd] })
    ((h.opens fd).trans he) hlogical rfl (List.append_nil _).symm
  have hopen : ∀ fd', isOpen (events ++ [.disconnect fd]) fd' = true ↔
      isOpen events fd' = true ∧ fd ≠ fd' := fun fd' => by
    rw [isOpen_snoc]
    simp only [ne_eq, Bool.and_eq_true, decide_eq_true_eq]
  obtain ⟨-, haof, hrewrites⟩ := pubsubCleanupClient_data fd p.server
  refine ⟨⟨_, rfl, horder, fun fd' => ?_, fun fd' hfd' => ?_, fun fd' hfd' => ?_, hdecoded, hruns,
    hsent⟩, .steps rfl hlogical (.inr ⟨haof ▸ List.prefix_rfl, .inl hrewrites⟩)⟩
  · rw [isOpen_snoc, isOpen_snoc, h.opens]
  · obtain ⟨ho, hfd⟩ := (hopen fd').1 hfd'
    have hmap : (pubsubCleanupClient fd p.server).clientsMap = p.server.clientsMap :=
      clientsMap_pubsubCleanupClient fd p.server
    rw [hmap, Std.ExtTreeMap.mem_erase, ne_eq, compare_eq_iff_eq]
    exact ⟨hfd, h.mem fd' ho⟩
  · obtain ⟨ho, hfd⟩ := (hopen fd').1 hfd'
    rw [client_disconnect, if_neg hfd]
    exact h.parsers fd' ho

/-- What is flushed was on record before. -/
theorem Refines.flushAof {started now : ℤ} (h : Refines s₀ events d p) :
    Refines s₀ events d (p.flushAof started now) ∧ Advances p (p.flushAof started now) := by
  have hlogical : p.flush.logical = p.logical := by
    simp [Process.logical, Server.logical, Process.flush]
  unfold Process.flushAof
  dsimp only
  split_ifs
  · exact ⟨⟨h.orderly, h.opens, h.mem, h.parsers, h.decoded,
      h.runs.trans (congrArg Except.ok hlogical.symm), h.sent⟩,
      .stays rfl hlogical (List.prefix_append _ _)⟩
  · exact ⟨⟨h.orderly, h.opens, h.mem, h.parsers, h.decoded, h.runs, h.sent⟩,
      .stays rfl rfl List.prefix_rfl⟩

/-- A tick goes on record as what is decoded from it, and as what the server does on that. -/
theorem Refines.tick {t : Tick} (h : Refines s₀ events d p) (he : ∀ e ∈ t.events, e.Follows events)
    (hp : p.tick t = .ok p') :
    (∃ d', d.step t = .ok d' ∧ Refines s₀ (events ++ t.events) d' p') ∧ Advances p p' := by
  rcases t with fd | fd | ⟨fd, b⟩ | fd | ⟨started, now⟩
  · exact h.accept (he _ List.mem_cons_self) hp
  · have hfd := isOpen_of_follows (he _ List.mem_cons_self)
    obtain rfl := Except.ok.inj hp
    rw [ensureClient_of_mem (h.mem fd hfd)]
    exact ⟨⟨d, rfl, h.command⟩, .stays rfl rfl List.prefix_rfl⟩
  · have hfd := isOpen_of_follows (he _ List.mem_cons_self)
    simp only [Process.tick] at hp
    rcases hb : p.receiveByte fd b with f | ⟨o, q⟩ <;> rw [hb] at hp
    · cases hp
    obtain rfl := Except.ok.inj hp
    obtain ⟨⟨d', hd', hq⟩, hadvances⟩ := h.receiveByte hfd hb
    exact ⟨⟨d', hd', hq.command⟩, hadvances⟩
  · exact h.close (he _ List.mem_cons_self) hp
  · obtain rfl := Except.ok.inj hp
    rw [Tick.events, List.append_nil]
    obtain ⟨hq, hadvances⟩ := h.flushAof
    exact ⟨⟨d, rfl, hq⟩, hadvances⟩

end Steps

section Runs

variable {s₀ : Server} {d : Decoder} {p p' : Process} {f : Fault} {rounds : List Round}

theorem report_eq_run (p : Process) (r : Report) : p.report r = run Process.tick p r.ticks := by
  rcases r with fd | ⟨fd, chunk⟩ | fd
  · rfl
  · have htick : ∀ q b, (fun q b => (Process.receiveByte fd q b).map Prod.snd) q b =
        run Process.tick q [.byte fd b] := fun q b => by
      rcases hb : q.receiveByte fd b with f | ⟨o, q'⟩
      · rw [run_cons_error (congrArg (Except.map Prod.snd) hb)]
        simp [hb, Except.map]
      · rw [run_cons_ok (congrArg (Except.map Prod.snd) hb)]
        simp [hb, Except.map, run]
    have hhear : p.tick (.hear fd) = .ok { p with server := p.server.ensureClient fd } := rfl
    rw [Report.ticks, run_cons_ok hhear, List.map_eq_flatMap, ← run_flatMap htick]
    exact feed_snd _ _ _
  · rfl

/-- A run of rounds, one tick after the other. -/
theorem run_round_eq (p : Process) (rounds : List Round) :
    run Process.round p rounds = run Process.tick p (rounds.flatMap Round.ticks) := by
  refine run_flatMap (fun p r => ?_) p rounds
  unfold Process.round Round.ticks
  rw [run_flatMap report_eq_run]
  rcases hr : run Process.tick p (r.reports.flatMap Report.ticks) with f | q
  · rw [run_append_error _ hr]
  · rw [run_append _ _ hr]
    rfl

/-- Each tick of an orderly run follows the ones before it. -/
theorem follows_of_orderly {ticks pre : List Tick} {t : Tick}
    (ho : Orderly (ticks.flatMap Tick.events)) (hpre : pre ++ [t] <+: ticks) :
    ∀ e ∈ t.events, e.Follows (pre.flatMap Tick.events) := by
  intro e he
  obtain ⟨post, rfl⟩ := hpre
  refine ho _ e ⟨post.flatMap Tick.events, ?_⟩
  rcases t with _ | _ | _ | _ | _ <;>
    simp only [Tick.events, List.mem_singleton, List.not_mem_nil] at he <;> subst he <;>
    simp [Tick.events]

/-- What every step of the server keeps, holds at the end of a run. -/
theorem Refines.runs_on {I : Process → Prop} (hI : ∀ p p', I p → Advances p p' → I p')
    {l ticks : List Tick} (h : Refines s₀ (l.flatMap Tick.events) d p)
    (hd : run Decoder.step {} l = .ok d) (hp : I p)
    (ho : Orderly ((l ++ ticks).flatMap Tick.events)) (hrun : run Process.tick p ticks = .ok p') :
    (∃ d', run Decoder.step {} (l ++ ticks) = .ok d' ∧
      Refines s₀ ((l ++ ticks).flatMap Tick.events) d' p') ∧ I p' := by
  refine run_history (J := fun pre q => (∃ d, run Decoder.step {} pre = .ok d ∧
    Refines s₀ (pre.flatMap Tick.events) d q) ∧ I q)
    (fun pre t q q' _ hpre hq ht => ?_) ⟨⟨d, hd, h⟩, hp⟩ hrun
  obtain ⟨⟨d, hd, hq⟩, hIq⟩ := hq
  obtain ⟨⟨d', hd', hq'⟩, hadvances⟩ := hq.tick (follows_of_orderly ho hpre) ht
  refine ⟨⟨d', ?_, ?_⟩, hI q q' hIq hadvances⟩
  · rw [run_append _ _ hd, run_cons_ok hd']
    rfl
  · rw [List.flatMap_append, List.flatMap_singleton]
    exact hq'

theorem refines_start {m : Moment} {file : Bytes} (h : Process.start m file = .ok p) :
    Refines p.logical [] {} p := by
  have hfresh : p.record = [] ∧ p.sent = [] := by
    unfold Process.start at h
    rcases hs : replayAof { now := m.now, disk := m.disk } { aof := file } with f | s <;>
      rw [hs] at h
    · cases h
    · obtain rfl := Except.ok.inj h
      exact ⟨rfl, rfl⟩
  refine ⟨?_, fun fd => ?_, fun fd hfd => Bool.noConfusion hfd,
    fun fd hfd => Bool.noConfusion hfd, ?_, ?_, ?_⟩ <;> rw [hfresh.1]
  · exact orderly_nil
  · rfl
  · rfl
  · exact hfresh.2

theorem refines_run {m : Moment} {file : Bytes} {ticks : List Tick}
    (hstart : Process.start m file = .ok p) (ho : Orderly (ticks.flatMap Tick.events))
    (h : run Process.tick p ticks = .ok p') :
    ∃ d, run Decoder.step {} ticks = .ok d ∧
      Refines p.logical (ticks.flatMap Tick.events) d p' :=
  ((refines_start hstart).runs_on (I := fun _ => True) (l := []) (fun _ _ _ _ => trivial) rfl
    trivial ho h).1

/-- Whatever a process held back and whenever it wrote, what it sent and what it stores is what the
server sends and stores on the commands that came in, one after the other. -/
theorem run_refines {m : Moment} {file : Bytes} (hstart : Process.start m file = .ok p)
    (ho : Orderly (reported rounds)) (h : run Process.round p rounds = .ok p') :
    ∃ d, run Decoder.step {} (rounds.flatMap Round.ticks) = .ok d ∧
      p'.record.map Event.untimed = d.events ∧ Orderly p'.record ∧
      run Server.step p.logical p'.record = .ok p'.logical ∧
      p'.sent = sendsOf p.logical p'.record := by
  rw [run_round_eq] at h
  obtain ⟨d, hd, hr⟩ := refines_run hstart ho h
  exact ⟨d, hd, hr.decoded, hr.orderly, hr.runs, hr.sent⟩

/-- What comes in while the machine decides nothing of its own. -/
def typed (bytes : Bytes) : List (Moment × UInt8) := bytes.map fun c => ({}, c)

/-- `RPUSH l v` -/
def pushOf (v : String) : List Bytes := [ascii "RPUSH", ascii "l", ascii v]

/-- `LRANGE l 0 -1` -/
def readCommand : List Bytes := [ascii "LRANGE", ascii "l", ascii "0", ascii "-1"]

/-- A connection pushes a value, and begins to push another one. -/
def firstPush : Round where
  reports := [.accept 4, .recv 4
    (typed (respCommand (pushOf "a") ++ (respCommand (pushOf "b")).take 9))]
  started := 0
  now := 0

/-- Two seconds later nothing has come in. -/
def quietRound : Round where
  reports := []
  started := 2000000000
  now := 2000000000

/-- The rest of the second push. -/
def secondPush : Round where
  reports := [.recv 4 (typed ((respCommand (pushOf "b")).drop 9))]
  started := 2500000000
  now := 2500000000

/-- The first push is in the file, and the second one is held back. -/
theorem exists_pushes : ∃ p, run Process.round {} [firstPush, quietRound, secondPush] = .ok p ∧
    p.record = [.connect 4, .command {} 4 (pushOf "a"), .command {} 4 (pushOf "b")] ∧
    p.server.aof = respCommand (pushOf "a") ∧ p.pending = respCommand (pushOf "b") ∧
    p.sent = [(4, ascii ":1\r\n"), (4, ascii ":2\r\n")] :=
  exists_of_any (by decide +kernel)

theorem orderly_pushes : Orderly (reported [firstPush, quietRound, secondPush]) := by
  decide +kernel

theorem run_refines_push : ∃ p p', ∃ d : Decoder, Process.start {} [] = .ok p ∧
    run Process.round p [firstPush, quietRound, secondPush] = .ok p' ∧
    p'.pending = respCommand (pushOf "b") ∧ p'.record.map Event.untimed = d.events ∧
    run Server.step p.logical p'.record = .ok p'.logical ∧
    p'.sent = sendsOf p.logical p'.record ∧
    p'.sent = [(4, ascii ":1\r\n"), (4, ascii ":2\r\n")] := by
  obtain ⟨p', hp', -, -, hheld, hsent⟩ := exists_pushes
  have hstart : Process.start {} [] = .ok {} := rfl
  obtain ⟨d, -, hdecoded, -, hruns, hsends⟩ := run_refines hstart orderly_pushes hp'
  exact ⟨{}, p', d, hstart, hp', hheld, hdecoded, hruns, hsends, hsent⟩

end Runs

end DrutaDB
