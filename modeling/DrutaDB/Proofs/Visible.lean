import DrutaDB.Proofs.Lifetime
import DrutaDB.Proofs.Rewrite
import DrutaDB.Proofs.Types
import DrutaDB.Proofs.Unevicted

/-!
# The visible part of a store

Some of the keys of a store may be hidden: those that are expired, or those with empty containers.
What is visible of a store is what its other keys hold, in the order of their last use
(`Store.shows`).  A command that keeps the memory limit does to the visible part what its effect
says (`Server.answer_access`), so two stores that show the same are told apart only by a command
whose outcomes on the values of its key differ.
-/

namespace DrutaDB

open Machine Decimal Capacity Store

/-- The entries are visible or hidden. -/
abbrev Visible := Bytes × DrutaValue → Bool

/-- What the visible keys hold, from `TAIL` on. -/
def Store.shows (P : Visible) (s : Store) : List (Bytes × View × ℤ) :=
  (s.order.filter P).map fun e => (e.1, e.2.view)

/-- What a command sends, and what is visible after it. -/
def Server.answer (P : Visible) (now fd : ℤ) (args : List Bytes) (s : Server) :
    Except Fault (Sends × List (Bytes × View × ℤ)) :=
  ((callOf args).run now fd (toUpper (args.headD [])) args s).map fun p =>
    (p.1.1, p.2.store.shows P)

/-- The memory limit is not reached while the command is executed. -/
def KeepsLimit (now : ℤ) (args : List Bytes) (s : Server) : Prop :=
  match (callOf args).action now args with
  | some (.access key outcome) =>
    ∀ u ∈ (outcome (s.store.value key)).effect.counters key
      { usage := s.store.currentMemoryUsage, evicted := s.store.evicted,
        wrapped := s.store.wrapped }, u ≤ lruMaxMemory
  | _ => True

/-! ## Lists -/

namespace Recency

variable (P : Visible) {r : Recency} {k : Bytes}

/-- What the visible entries hold. -/
def shows (r : Recency) : List (Bytes × View × ℤ) :=
  (r.nodes.entries.filter P).map fun e => (e.1, e.2.view)

theorem shows_toStore (r : Recency) : r.toStore.shows P = r.shows P := by
  unfold Store.shows
  rw [order_toStore]
  rfl

/-- What a value is seen as. -/
def entry (k : Bytes) (v : DrutaValue) : List (Bytes × View × ℤ) :=
  if P (k, v) then [(k, v.view)] else []

theorem entry_congr {v w : DrutaValue} (hP : P (k, v) = P (k, w)) (hview : v.view = w.view) :
    entry P k v = entry P k w := by
  unfold entry
  rw [hP, hview]

theorem shows_remove (l : RecencyList Bytes DrutaValue) (k : Bytes) (a b : Account) :
    shows P ⟨l.remove k, a⟩ = (shows P ⟨l, b⟩).filter (·.1 ≠ k) := by
  unfold shows RecencyList.remove
  rw [List.filter_map, List.filter_filter, List.filter_filter]
  congr 1
  refine List.filter_congr fun e _ => ?_
  simp [Bool.and_comm]

theorem shows_push (l : RecencyList Bytes DrutaValue) (k : Bytes) (v : DrutaValue)
    (a b : Account) :
    shows P ⟨l.push k v, a⟩ = (shows P ⟨l, b⟩).filter (·.1 ≠ k) ++ entry P k v := by
  rw [← shows_remove P l k a b]
  unfold shows RecencyList.push entry
  rw [List.filter_append, List.map_append]
  congr 1
  split_ifs with h
  · simp [h]
  · simp [h]

/-- A key that is not there or hidden is not among those that are seen. -/
theorem filter_shows (h : ∀ v, r.find k = some v → P (k, v) = false) :
    (r.shows P).filter (·.1 ≠ k) = r.shows P := by
  refine List.filter_eq_self.2 fun e he => ?_
  obtain ⟨⟨k', v⟩, hmem, rfl⟩ := List.mem_map.1 he
  obtain ⟨hin, hP⟩ := List.mem_filter.1 hmem
  simp only [decide_eq_true_eq]
  rintro rfl
  rw [h v (RecencyList.find_eq_some_iff.2 hin)] at hP
  cases hP

theorem shows_drop (r : Recency) (k : Bytes) :
    (r.drop k).shows P = (r.shows P).filter (·.1 ≠ k) := by
  unfold drop
  rcases h : r.find k with _ | v
  · refine (filter_shows P fun v hv => ?_).symm
    rw [h] at hv
    cases hv
  · exact shows_remove P r.nodes k _ _

/-- `DEL` takes its keys out of what is seen. -/
theorem shows_deleteAll : ∀ (keys : List Bytes) (r : Recency),
    (Action.deleteAll keys r).2.shows P = (r.shows P).filter (·.1 ∉ keys)
  | [], r => by simp [Action.deleteAll]
  | key :: keys, r => by
    unfold Action.deleteAll
    have hsplit : ∀ l : List (Bytes × View × ℤ),
        (l.filter (·.1 ≠ key)).filter (·.1 ∉ keys) = l.filter (·.1 ∉ key :: keys) := by
      intro l
      rw [List.filter_filter]
      refine List.filter_congr fun e _ => ?_
      simp [Bool.and_comm]
    split
    · rw [shows_deleteAll keys, shows_drop, hsplit]
    · rename_i hn
      rw [shows_deleteAll keys, ← hsplit, filter_shows]
      intro v hv
      rw [hn] at hv
      cases hv

/-- Hidden keys can be removed. -/
theorem shows_deleteAll_of_hidden {keys : List Bytes}
    (h : ∀ k ∈ keys, ∀ v, r.find k = some v → P (k, v) = false) :
    (Action.deleteAll keys r).2.shows P = r.shows P := by
  rw [shows_deleteAll]
  refine List.filter_eq_self.2 fun e he => ?_
  obtain ⟨⟨k, v⟩, hmem, rfl⟩ := List.mem_map.1 he
  obtain ⟨hin, hP⟩ := List.mem_filter.1 hmem
  simp only [decide_eq_true_eq]
  intro hk
  rw [h k hk v (RecencyList.find_eq_some_iff.2 hin)] at hP
  cases hP

end Recency

/-! ## Effects -/

section Effects

variable (P : Visible) (fd : ℤ) {r : Recency} {k : Bytes}

/-- What an effect that evicts nothing makes of what is seen. -/
def Effect.shown (k : Bytes) (l : List (Bytes × View × ℤ)) : Effect → List (Bytes × View × ℤ)
  | .keep | .fail _ => l
  | .drop => l.filter (·.1 ≠ k)
  | .assign v _ _ | .pop v _ _ _ | .create v | .createAssign _ v _ _ _ =>
    l.filter (·.1 ≠ k) ++ Recency.entry P k v

theorem shows_after (r : Recency) (k : Bytes) (e : Effect) :
    (e.after k r).shows P = e.shown P k (r.shows P) := by
  cases e with
  | keep => rfl
  | fail f => rfl
  | drop => exact Recency.shows_drop P r k
  | assign v c b => exact Recency.shows_push P r.nodes k v _ _
  | pop v m n b => exact Recency.shows_push P r.nodes k v _ _
  | create v => exact Recency.shows_push P r.nodes k v _ _
  | createAssign v₀ v m n b => exact Recency.shows_push P r.nodes k v _ _

/-- What an outcome that evicts nothing sends, and what is seen after it. -/
def Outcome.answer (k : Bytes) (l : List (Bytes × View × ℤ)) (out : Outcome) :
    Except Fault (Sends × List (Bytes × View × ℤ)) :=
  match out.effect with
  | .fail f => .error f
  | e => .ok (sendTo fd out.reply, e.shown P k l)

theorem answer_of_effect {l : List (Bytes × View × ℤ)} {o : Outcome}
    (h : ∀ f, o.effect ≠ .fail f) :
    o.answer P fd k l = .ok (sendTo fd o.reply, o.effect.shown P k l) := by
  unfold Outcome.answer
  split
  · exact absurd ‹_› (h _)
  · rfl

variable {P fd} {l : List (Bytes × View × ℤ)} {o o' : Outcome}

/-- Different replies tell two outcomes apart. -/
theorem answer_ne (hfd : fd ≠ -1) (hf : ∀ f, o.effect ≠ .fail f) (hf' : ∀ f, o'.effect ≠ .fail f)
    (hne : o.reply ≠ o'.reply) : o.answer P fd k l ≠ o'.answer P fd k l := by
  rw [answer_of_effect _ _ hf, answer_of_effect _ _ hf']
  intro h
  simp only [sendTo, hfd, if_false, Except.ok.injEq, Prod.mk.injEq, List.cons.injEq, and_true,
    true_and] at h
  exact hne h.1

theorem answer_eq (hf : ∀ f, o.effect ≠ .fail f) (hf' : ∀ f, o'.effect ≠ .fail f)
    (hreply : o.reply = o'.reply)
    (hshown : o.effect.shown P k l = o'.effect.shown P k l) :
    o.answer P fd k l = o'.answer P fd k l := by
  rw [answer_of_effect _ _ hf, answer_of_effect _ _ hf', hreply, hshown]

theorem ne_of_head {b b' : Bytes} {c c' : UInt8} (h : b.head? = some c) (h' : b'.head? = some c')
    (hne : c ≠ c') : b ≠ b' := fun he => by
  rw [he, h'] at h
  exact hne (Option.some.inj h).symm

theorem wrongType_head : wrongType.head? = some (byte '-') := by decide

/-- `WRONGTYPE` tells an outcome from one that does not fail. -/
theorem answer_wrongType {c : UInt8} (hfd : fd ≠ -1) (hkeep : o.effect = .keep)
    (hreply : o.reply = wrongType) (hf' : ∀ f, o'.effect ≠ .fail f)
    (hhead : o'.reply.head? = some c) (hc : c ≠ byte '-') :
    o.answer P fd k l ≠ o'.answer P fd k l := by
  refine answer_ne hfd (fun f hf => ?_) hf' ?_
  · rw [hkeep] at hf
    cases hf
  · rw [hreply]
    exact ne_of_head wrongType_head hhead hc.symm

theorem wrongType_ne_noSuchKey : wrongType ≠ noSuchKey := by decide

end Effects

/-! ## Commands -/

section Answers

variable {P : Visible} {now fd : ℤ} {args : List Bytes} {s : Server} {r : Recency} {k : Bytes}

/-- A command on one key that keeps the limit. -/
theorem Server.answer_access {f : Option DrutaValue → Outcome} (hs : s.store = r.toStore)
    (ha : (callOf args).action now args = some (.access k f)) (hl : KeepsLimit now args s) :
    s.answer P now fd args = (f (r.find k)).answer P fd k (r.shows P) := by
  unfold Server.answer
  rw [Call.run_action r now args ha fd _ hs]
  unfold KeepsLimit at hl
  simp only [ha, hs, value_toStore] at hl
  by_cases hfail : ∃ g, (f (r.find k)).effect = .fail g
  · obtain ⟨g, hg⟩ := hfail
    simp only [Action.run, Recency.apply, Outcome.answer, hg]
    rfl
  · push Not at hfail
    rw [Action.run_access (fits_of_action (r.find k) ha) hfail hl, answer_of_effect P fd hfail,
      ← shows_after, ← Recency.shows_toStore]
    rfl

/-- Nothing is counted where a list is only measured. -/
theorem keepsLimit_llen (now : ℤ) (k : Bytes) (s : Server) :
    KeepsLimit now [ascii "LLEN", k] s := by
  change ∀ u ∈ (llenOutcome (s.store.value k)).effect.counters _ _, u ≤ lruMaxMemory
  rcases s.store.value k with _ | ⟨d, e, m⟩
  · nofun
  · cases d <;> nofun

/-- A command that only reads. -/
theorem Server.answer_inspect {m : StoreM (Bytes × Bool)} {b : Bytes} (hs : s.store = r.toStore)
    (ha : (callOf args).action now args = some (.inspect m))
    (hm : m r.toStore = .ok ((b, false), r.toStore)) :
    s.answer P now fd args = .ok (sendTo fd b, r.shows P) := by
  have hrun : (Action.inspect m).run r = .ok ((b, false), r) := by
    rw [Action.run, hm]
    rfl
  unfold Server.answer
  rw [Call.run_action r now args ha fd _ hs, hrun, ← Recency.shows_toStore]
  rfl

theorem Server.answer_delete {keys : List Bytes} (hs : s.store = r.toStore)
    (ha : (callOf args).action now args = some (.delete keys)) :
    s.answer P now fd args = .ok (sendTo fd (sendInteger (Action.deleteAll keys r).1),
      (Action.deleteAll keys r).2.shows P) := by
  unfold Server.answer
  rw [Call.run_action r now args ha fd _ hs, ← Recency.shows_toStore]
  rfl

variable {r' : Recency}

/-- Over two lists that show the same, the answers are the same exactly if the outcomes are. -/
theorem Server.answer_access_iff {f : Option DrutaValue → Outcome} (hs : s.store = r.toStore)
    (hshows : r'.shows P = r.shows P) (ha : (callOf args).action now args = some (.access k f))
    (hl : KeepsLimit now args s) (hl' : KeepsLimit now args { s with store := r'.toStore }) :
    s.answer P now fd args = ({ s with store := r'.toStore } : Server).answer P now fd args ↔
      (f (r.find k)).answer P fd k (r.shows P) = (f (r'.find k)).answer P fd k (r.shows P) := by
  have hs' : ({ s with store := r'.toStore } : Server).store = r'.toStore := rfl
  rw [Server.answer_access hs ha hl, Server.answer_access hs' ha hl', hshows]

/-- The same for what a command reads. -/
theorem Server.answer_inspect_iff {m : StoreM (Bytes × Bool)} {b b' : Bytes}
    (hs : s.store = r.toStore) (hfd : fd ≠ -1) (hshows : r'.shows P = r.shows P)
    (ha : (callOf args).action now args = some (.inspect m))
    (hm : m r.toStore = .ok ((b, false), r.toStore))
    (hm' : m r'.toStore = .ok ((b', false), r'.toStore)) :
    s.answer P now fd args = ({ s with store := r'.toStore } : Server).answer P now fd args ↔
      b = b' := by
  have hs' : ({ s with store := r'.toStore } : Server).store = r'.toStore := rfl
  rw [Server.answer_inspect hs ha hm, Server.answer_inspect hs' ha hm', hshows]
  simp [sendTo, hfd]

end Answers

/-! ## Handling a command -/

section Handled

variable {P : Visible} {env : Env} {fd : ℤ} {a : Bytes} {as : List Bytes} {s s' : Server}

theorem rewriteAof_store (h : rewriteAof env s = .ok s') : s'.store = s.store := by
  unfold rewriteAof at h
  by_cases ho : env.disk.opens
  · rcases hw : s.store.walk s.store.kvStore.size s.store.tail with f | nodes <;>
      simp only [ho, if_true, hw, bind, Except.bind] at h
    · cases h
    · rcases ht : rewriteText env.now nodes with f | text <;>
        simp only [ht, uncaught, Except.mapError, pure, Except.pure] at h
      · cases h
      · split_ifs at h <;> obtain rfl := Except.ok.inj h <;> rfl
  · simp only [ho] at h
    obtain rfl := Except.ok.inj h
    rfl

theorem appendToAof_store {args : List Bytes} (h : appendToAof args s = .ok s') :
    s'.store = s.store := by
  rcases args with _ | ⟨a, as⟩
  · rw [Except.ok.inj h]
  · unfold appendToAof at h
    by_cases hv : isValid (toUpper a) <;> simp only [hv, if_true] at h
    · rcases hf : formatRespCommand (a :: as) with f | text <;> rw [hf] at h
      · cases h
      · obtain rfl := Except.ok.inj h
        rfl
    · rw [Except.ok.inj h]

theorem checkAndRewriteAof_store (h : checkAndRewriteAof env s = .ok s') : s'.store = s.store := by
  unfold checkAndRewriteAof at h
  split_ifs at h
  · rw [Except.ok.inj h]
  · exact rewriteAof_store h
  · rw [Except.ok.inj h]

/-- What a client that is not turned away is sent, and what is visible once the command is
handled, its logging included. -/
theorem handleCommand_answer {sends : Sends} {l : List (Bytes × View × ℤ)}
    (ht : turnedAway s fd (toUpper a) = false)
    (h : (s.ensureClient fd).answer P env.now fd (a :: as) = .ok (sends, l)) :
    (handleCommand env fd (a :: as) s).1 = sends ∧
      ∀ t, (handleCommand env fd (a :: as) s).2 = .ok t → t.store.shows P = l := by
  have hcall : route (toUpper a) (a :: as).length = callOf (a :: as) := rfl
  unfold Server.answer at h
  simp only [handleCommand, turnedAway_ensureClient, ht, hcall, Bool.false_eq_true, if_false]
  rcases hrun : (callOf (a :: as)).run env.now fd (toUpper a) (a :: as) (s.ensureClient fd)
    with f | ⟨⟨sent, ok⟩, t⟩
  · rw [List.headD_cons, hrun] at h
    cases h
  · rw [List.headD_cons, hrun] at h
    obtain ⟨rfl, rfl⟩ := Prod.mk.inj (Except.ok.inj h)
    refine ⟨rfl, fun t' ht' => ?_⟩
    dsimp only at ht'
    split_ifs at ht'
    · rcases ha : appendToAof (a :: as) t with f | u <;> rw [ha] at ht'
      · cases ht'
      · rw [checkAndRewriteAof_store ht', appendToAof_store ha]
    · rw [Except.ok.inj ht']

end Handled

/-! ## Commands that leave the store alone -/

section Quiet

variable {P : Visible} {now fd : ℤ} {args : List Bytes} {s : Server} {st : Store}

theorem subscribeLoop_store (fd : ℤ) (st : Store) : ∀ (channels : List Bytes) (s : Server),
    subscribeLoop fd channels { s with store := st } =
      ((subscribeLoop fd channels s).1, { (subscribeLoop fd channels s).2 with store := st })
  | [], s => rfl
  | channel :: channels, s => by
    unfold subscribeLoop
    have hclient : ({ s with store := st } : Server).client fd = s.client fd := rfl
    dsimp only
    rw [hclient]
    split_ifs
    · rfl
    · have ih := subscribeLoop_store fd st channels
        ((s.setChannel channel ((s.subscribers channel).insert fd)).setClient fd
          { s.client fd with
            isSubscriber := true
            subscribedChannels := (s.client fd).subscribedChannels.insert channel })
      exact congrArg (fun p : Bytes × Server => (_ ++ p.1, p.2)) ih

theorem unsubscribeLoop_store (fd : ℤ) (st : Store) : ∀ (channels : List Bytes) (s : Server),
    unsubscribeLoop fd channels { s with store := st } =
      ((unsubscribeLoop fd channels s).1, { (unsubscribeLoop fd channels s).2 with store := st })
  | [], s => rfl
  | channel :: channels, s => by
    have ih := unsubscribeLoop_store fd st channels
      ((s.setChannel channel ((s.subscribers channel).erase fd)).setClient fd
        { s.client fd with
          subscribedChannels := (s.client fd).subscribedChannels.erase channel
          isSubscriber := if ((s.client fd).subscribedChannels.erase channel).isEmpty then false
            else (s.client fd).isSubscriber })
    exact congrArg (fun p : Bytes × Server => (_ ++ p.1, p.2)) ih

theorem pubsubPublish_store (args : List Bytes) (st : Store) (s : Server) :
    pubsubPublish args { s with store := st } =
      ((pubsubPublish args s).1, (pubsubPublish args s).2.1,
        { (pubsubPublish args s).2.2 with store := st }) := by
  unfold pubsubPublish
  split_ifs
  · rfl
  · dsimp only
    cases s.channelsSubscribers[arg args 1]? <;> rfl

/-- A branch that does not work on the store sends the same whatever the store. -/
theorem Call.run_store {c : Call} (hc : c.action now args = none) (hf : c ≠ .flushdb) (cmd : Bytes)
    (st : Store) (s : Server) : c.run now fd cmd args { s with store := st } =
      (c.run now fd cmd args s).map fun p => (p.1, { p.2 with store := st }) := by
  cases c <;> simp only [Call.action, reduceCtorEq, ne_eq, not_true_eq_false] at hc hf
  case ping => rfl
  case echo => rfl
  case command => rfl
  case unknown => rfl
  case subscribe =>
    simp only [Call.run, pubsubSubscribe, subscribeLoop_store]
    rfl
  case unsubscribe =>
    have hclient : ({ s with store := st } : Server).client fd = s.client fd := rfl
    simp only [Call.run, pubsubUnsubscribe, hclient]
    generalize (if args.length = 1 then _ else args.drop 1) = channels
    split_ifs
    · rfl
    · rw [unsubscribeLoop_store]
      rfl
  case publish =>
    simp only [Call.run, commandPublish, pubsubPublish_store]
    rfl

/-- Such a command answers the same over stores that show the same. -/
theorem Server.answer_of_none (ha : (callOf args).action now args = none)
    (hshows : st.shows P = s.store.shows P) :
    ({ s with store := st } : Server).answer P now fd args = s.answer P now fd args := by
  unfold Server.answer
  by_cases hc : callOf args = .flushdb
  · simp only [hc, Call.run, commandFlushdb]
    split_ifs
    · simp only [Except.map, hshows]
    · rfl
  · have hquiet : (callOf args).change now args = .quiet := by
      simp only [Call.change, ha, hc, false_and, if_false]
    obtain ⟨sends, s', hrun, hstore, -⟩ := Call.run_quiet hquiet fd (toUpper (args.headD [])) s
    rw [Call.run_store ha hc, hrun]
    simp only [Except.map, hstore, hshows]

end Quiet

/-! ## Commands on several sets -/

section Sets

variable {s s' : Store} {args : List Bytes}

/-- The members a command on several sets sees in a key. -/
def members : Option DrutaValue → List Bytes
  | some { data := .set t, .. } => t.toList
  | _ => []

theorem sunionLoop_eq (s : Store) : ∀ (keys : List Bytes) (u : Std.ExtTreeSet Bytes),
    sunionLoop keys u s =
      .ok (keys.foldl (fun u key => (members (s.value key)).foldl (·.insert ·) u) u, s)
  | [], u => rfl
  | key :: keys, u => by
    unfold sunionLoop
    rw [bind_ok (show Store.find key s = .ok (s.value key, s) from rfl), List.foldl_cons]
    rcases hv : s.value key with _ | ⟨d, e, m⟩
    · exact sunionLoop_eq s keys u
    · cases d <;> exact sunionLoop_eq s keys _

theorem sdiffLoop_eq (s : Store) : ∀ (keys : List Bytes) (d : Std.ExtTreeSet Bytes),
    sdiffLoop keys d s = .ok (keys.foldl (fun d key => (members (s.value key)).foldl
      (fun d a => if d.contains a then d.erase a else d) d) d, s)
  | [], d => rfl
  | key :: keys, d => by
    unfold sdiffLoop
    rw [bind_ok (show Store.find key s = .ok (s.value key, s) from rfl), List.foldl_cons]
    rcases hv : s.value key with _ | ⟨d', e, m⟩
    · exact sdiffLoop_eq s keys d
    · cases d' <;> exact sdiffLoop_eq s keys _

/-- The set an intersection starts from, unless its first key holds something else. -/
def firstSet : Option DrutaValue → Option (Std.ExtTreeSet Bytes)
  | some { data := .set t, .. } => some t
  | some _ => none
  | none => some ∅

/-- `SUNION` sees nothing but the members. -/
theorem commandSunion_congr (args : List Bytes)
    (h : ∀ key, members (s'.value key) = members (s.value key)) :
    ∃ b, commandSunion args s = .ok ((b, false), s) ∧
      commandSunion args s' = .ok ((b, false), s') := by
  unfold commandSunion
  split_ifs
  · exact ⟨_, rfl, rfl⟩
  · refine ⟨_, bind_ok (sunionLoop_eq s _ _), ?_⟩
    rw [bind_ok (sunionLoop_eq s' _ _)]
    simp only [h]
    rfl

/-- `SDIFF` sees the type of its first key as well. -/
theorem commandSdiff_congr (args : List Bytes)
    (h : ∀ key, members (s'.value key) = members (s.value key))
    (hfirst : firstSet (s'.value (arg args 1)) = firstSet (s.value (arg args 1))) :
    ∃ b, commandSdiff args s = .ok ((b, false), s) ∧
      commandSdiff args s' = .ok ((b, false), s') := by
  have hcases : ∀ st : Store, commandSdiff args st = .ok ((if args.length < 2 then
      wrongNumber "sismember" else (firstSet (st.value (arg args 1))).elim wrongType fun t =>
        respArrayOf ((args.drop 2).foldl (fun d key => (members (st.value key)).foldl
          (fun d a => if d.contains a then d.erase a else d) d) t).toList, false), st) := by
    intro st
    unfold commandSdiff
    split_ifs
    · rfl
    · rw [bind_ok (show Store.find _ st = .ok (st.value _, st) from rfl)]
      rcases st.value (arg args 1) with _ | ⟨d, e, m⟩
      · exact bind_ok (sdiffLoop_eq st _ _)
      · cases d with
        | set t => exact bind_ok (sdiffLoop_eq st _ _)
        | _ => rfl
  refine ⟨_, hcases s, ?_⟩
  rw [hcases s']
  simp only [h, hfirst]

/-- Where the loop meets nothing that is no set, it does not get to the keys that differ. -/
theorem sinterLoop_of_some (h : ∀ key, s'.value key = s.value key ∨ HoldsOther s key) :
    ∀ {keys : List Bytes} {inter t : Std.ExtTreeSet Bytes},
      sinterLoop keys inter s = .ok (some t, s) → sinterLoop keys inter s' = .ok (some t, s')
  | [], inter, t, hs => by
    have ht : inter = t := by
      injection hs with hs
      injection hs with hs
      injection hs
    rw [ht]
    rfl
  | key :: keys, inter, t, hs => by
    unfold sinterLoop at hs ⊢
    rw [bind_ok (find_value _ key)] at hs ⊢
    rcases h key with hkey | ⟨v, hv, hkind⟩
    · rw [hkey]
      rcases hval : s.value key with _ | ⟨d, e, m⟩ <;> rw [hval] at hs
      · cases hs
        rfl
      · rcases d with _ | _ | _ | u
        · cases hs
        · cases hs
        · cases hs
        · dsimp only at hs ⊢
          split_ifs at hs ⊢
          · cases hs
            rfl
          · exact sinterLoop_of_some h hs
    · rw [hv] at hs
      rcases hd : v.data
      case set => exact absurd (congrArg Data.kind hd) hkind
      all_goals
        simp only [hd] at hs
        cases hs

/-- `SDIFF` tells a first key of another type from one that is not. -/
theorem commandSdiff_other (h : HoldsOther s (arg args 1)) (h' : ¬ HoldsOther s' (arg args 1))
    (hsize : 2 ≤ args.length) :
    ∃ b b', commandSdiff args s = .ok ((b, false), s) ∧
      commandSdiff args s' = .ok ((b', false), s') ∧ b ≠ b' := by
  obtain ⟨b, hb, hiff⟩ := commandSdiff_wrongType (s := s) hsize
  obtain ⟨b', hb', hiff'⟩ := commandSdiff_wrongType (s := s') hsize
  refine ⟨b, b', hb, hb', fun heq => h' ?_⟩
  rw [← hiff', ← heq, hiff]
  exact h

/-- `SINTER` tells two stores apart that differ in keys that hold no set where it notices one in the
first, unless it notices another one in the second. -/
theorem commandSinter_other (h : ∀ key, s'.value key = s.value key ∨ HoldsOther s key)
    (hsize : 2 ≤ args.length) :
    ∃ b b', commandSinter args s = .ok ((b, false), s) ∧ commandSinter args s' = .ok ((b', false), s')
      ∧ (b = b' ↔ (SinterNotices s (args.drop 1) → SinterNotices s' (args.drop 1))) := by
  obtain ⟨b, hb, hiff⟩ := commandSinter_wrongType (s := s) hsize
  obtain ⟨b', hb', hiff'⟩ := commandSinter_wrongType (s := s') hsize
  refine ⟨b, b', hb, hb', fun heq hn => ?_, fun himp => ?_⟩
  · rw [← hiff', ← heq, hiff]
    exact hn
  by_cases hn : SinterNotices s (args.drop 1)
  · rw [hiff.2 hn, hiff'.2 (himp hn)]
  -- the loop stops before a key that differs, and does so in the other store as well
  have hne : b ≠ wrongType := fun hc => hn (hiff.1 hc)
  have hloop : ∀ inter : Std.ExtTreeSet Bytes,
      (sinterLoop (args.drop 2) inter >>= fun o => pure (sinterReply o, false)) s =
        .ok ((b, false), s) →
      (sinterLoop (args.drop 2) inter >>= fun o => pure (sinterReply o, false)) s' =
        .ok ((b, false), s') := by
    intro inter hs
    obtain ⟨o, ho⟩ := sinterLoop_reads (args.drop 2) inter s
    rw [bind_ok ho] at hs
    have hreply : sinterReply o = b := by
      injection hs with hs
      injection hs with hs
      injection hs
    rcases o with _ | t
    · exact absurd hreply.symm hne
    · rw [bind_ok (sinterLoop_of_some h ho), hreply]
      rfl
  have hsame : commandSinter args s' = .ok ((b, false), s') := by
    unfold commandSinter at hb ⊢
    rw [if_neg (by omega), bind_ok (find_value _ _)] at hb ⊢
    rcases h (arg args 1) with hkey | ⟨v, hv, hkind⟩
    · rw [hkey]
      rcases hval : s.value (arg args 1) with _ | ⟨d, e, m⟩ <;> rw [hval] at hb
      · exact hloop ∅ hb
      · cases d with
        | set t => exact hloop t hb
        | _ =>
          cases hb
          exact absurd rfl hne
    · rw [hv] at hb
      rcases hd : v.data
      case set => exact absurd (congrArg Data.kind hd) hkind
      all_goals
        simp only [hd] at hb
        cases hb
        exact absurd rfl hne
  rw [hsame] at hb'
  injection hb' with hb'
  injection hb' with hb'
  injection hb'

end Sets

end DrutaDB
