import DrutaDB.Network
import DrutaDB.Proofs.Delivery
import DrutaDB.Proofs.RoundTrip

/-!
# Connections apart

No command touches a parser (`parser_handleCommand`), so the parser of a client is where the bytes
of its own connection took it (`Net.step_parsed`).  The calls made for a connection are those for
the commands complete in its bytes (`run_isolated`).
-/

namespace DrutaDB

open Machine Decimal Feed Run RespParser

/-! ## Parsers -/

section Parsers

variable {s s' : Server} {env : Env} {fd : ℤ} {args : List Bytes}

theorem parser_setClient (c : Client) (hc : c.parser = (s.client fd).parser) (fd' : ℤ) :
    ((s.setClient fd c).client fd').parser = (s.client fd').parser := by
  rw [Server.client_setClient]
  split_ifs with hfd
  · rw [hc, hfd]
  · rfl

theorem parser_set {channel : Bytes} {subscribers : Std.ExtTreeSet ℤ} {c : Client}
    (hc : c.parser = (s.client fd).parser) (fd' : ℤ) :
    (((s.setChannel channel subscribers).setClient fd c).client fd').parser =
      (s.client fd').parser := by
  rw [Server.client_setClient, Server.client_setChannel]
  split_ifs with hfd
  · rw [hc, hfd]
  · rfl

theorem parser_subscribeLoop (fd' : ℤ) : ∀ (channels : List Bytes) (s : Server),
    ((subscribeLoop fd channels s).2.client fd').parser = (s.client fd').parser
  | [], _ => rfl
  | channel :: channels, s => by
    unfold subscribeLoop
    dsimp only
    split_ifs
    · exact parser_setClient _ rfl fd'
    · rw [parser_subscribeLoop fd' channels, parser_set]
      rfl

theorem parser_unsubscribeLoop (fd' : ℤ) : ∀ (channels : List Bytes) (s : Server),
    ((unsubscribeLoop fd channels s).2.client fd').parser = (s.client fd').parser
  | [], _ => rfl
  | channel :: channels, s => by
    unfold unsubscribeLoop
    dsimp only
    rw [parser_unsubscribeLoop fd' channels, parser_set]
    rfl

theorem parser_pubsub (c : Call) (fd' : ℤ) :
    ((c.pubsub fd args s).client fd').parser = (s.client fd').parser := by
  cases c
  case subscribe => exact parser_subscribeLoop fd' _ _
  case unsubscribe =>
    unfold Call.pubsub pubsubUnsubscribe
    dsimp only
    generalize (if args.length = 1 then _ else args.drop 1) = channels
    split_ifs
    · exact parser_setClient _ rfl fd'
    · exact parser_unsubscribeLoop fd' channels _
  case publish =>
    unfold Call.pubsub pubsubPublish
    split_ifs
    · rfl
    · dsimp only
      split
      · rfl
      · rfl
  all_goals rfl

/-- A command leaves every parser where it is. -/
theorem parser_handleCommand (h : (handleCommand env fd args s).2 = .ok s') (fd' : ℤ) :
    (s'.client fd').parser = (s.client fd').parser := by
  have he : ((s.ensureClient fd).client fd').parser = (s.client fd').parser :=
    parser_setClient _ rfl fd'
  rw [(handleCommand_maps h).client]
  unfold pubsubPart
  split_ifs
  · exact he
  · exact (parser_pubsub _ fd').trans he

end Parsers

/-! ## Bytes -/

section Bytes

variable {fd fd' : ℤ} {s s' : Server}

/-- A byte takes the parser of its client one step, and no other parser. -/
theorem receiveByte_ok {b : Env × UInt8} {o : Option (List Bytes)}
    (h : receiveByte fd s b = .ok (o, s')) :
    (s.client fd).parser.step b.2 = .ok (o, (s'.client fd).parser)
      ∧ ∀ fd', fd ≠ fd' → (s'.client fd').parser = (s.client fd').parser := by
  unfold receiveByte at h
  rcases hp : (s.client fd).parser.step b.2 with e | ⟨_ | args, p⟩ <;> rw [hp] at h
  · cases h
  · obtain ⟨rfl, rfl⟩ := Prod.mk.inj (Except.ok.inj h)
    refine ⟨?_, fun fd' hfd => ?_⟩
    · rw [Server.client_setClient, if_pos rfl]
    · rw [Server.client_setClient, if_neg hfd]
  · dsimp only at h
    rcases hc : (handleCommand b.1 fd args s).2 with f | t <;> rw [hc] at h
    · cases h
    · obtain ⟨rfl, rfl⟩ := Prod.mk.inj (Except.ok.inj h)
      refine ⟨?_, fun fd' hfd => ?_⟩
      · rw [Server.client_setClient, if_pos rfl]
      · rw [Server.client_setClient, if_neg hfd]
        exact parser_handleCommand hc fd'

theorem feed_receiveByte : ∀ {chunk : List (Env × UInt8)} {s s' : Server}
    {calls : List (List Bytes)}, feed (receiveByte fd) s chunk = (calls, .ok s') →
      feed RespParser.step (s.client fd).parser (chunk.map Prod.snd)
          = (calls, .ok (s'.client fd).parser)
        ∧ ∀ fd', fd ≠ fd' → (s'.client fd').parser = (s.client fd').parser
  | [], s, s', calls, h => by
    obtain ⟨rfl, hs⟩ := Prod.mk.inj h
    obtain rfl := Except.ok.inj hs
    exact ⟨rfl, fun _ _ => rfl⟩
  | b :: chunk, s, s', calls, h => by
    rcases hb : receiveByte fd s b with f | ⟨o, t⟩
    · rw [feed_cons_error _ hb] at h
      cases h
    · rw [feed_cons_ok _ hb] at h
      obtain ⟨rfl, ht⟩ := Prod.mk.inj h
      obtain ⟨hstep, hothers⟩ := receiveByte_ok hb
      obtain ⟨hfeed, hothers'⟩ := feed_receiveByte (Prod.ext rfl ht)
      refine ⟨?_, fun fd' hfd => (hothers' fd' hfd).trans (hothers fd' hfd)⟩
      rw [List.map_cons, feed_cons_ok _ hstep, hfeed]

end Bytes

/-! ## Runs -/

/-- The bytes that came in on a descriptor since it was last accepted or closed. -/
def received (events : List NetEvent) (fd : ℤ) : Bytes :=
  events.foldl (fun bs e =>
    match e with
    | .accept fd' => if fd' = fd then [] else bs
    | .recv fd' chunk => if fd' = fd then bs ++ chunk.map Prod.snd else bs
    | .close fd' => if fd' = fd then [] else bs) []

/-- The calls made for a descriptor since it was last accepted or closed. -/
def calls (record : List Did) (fd : ℤ) : List (List Bytes) :=
  record.foldl (fun cs d =>
    match d with
    | .accepted fd' => if fd' = fd then [] else cs
    | .called fd' args => if fd' = fd then cs ++ [args] else cs
    | .closed fd' => if fd' = fd then [] else cs) []

theorem received_snoc (events : List NetEvent) (e : NetEvent) (fd : ℤ) :
    received (events ++ [e]) fd =
      match e with
      | .accept fd' => if fd' = fd then [] else received events fd
      | .recv fd' chunk =>
        if fd' = fd then received events fd ++ chunk.map Prod.snd else received events fd
      | .close fd' => if fd' = fd then [] else received events fd := by
  unfold received
  rw [List.foldl_append]
  cases e <;> rfl

theorem calls_called (record : List Did) (fd fd' : ℤ) : ∀ cs : List (List Bytes),
    calls (record ++ cs.map (.called fd)) fd' =
      if fd = fd' then calls record fd' ++ cs else calls record fd'
  | [] => by simp
  | args :: cs => by
    have ih := calls_called (record ++ [.called fd args]) fd fd' cs
    rw [List.append_assoc, List.singleton_append] at ih
    rw [List.map_cons, ih]
    unfold calls
    rw [List.foldl_append]
    split_ifs with hfd
    · simp [hfd]
    · simp [hfd]

/-- Every parser is where the bytes of its connection took a fresh one, and the calls are those it
made on the way. -/
def Parsed (events : List NetEvent) (n : Net) : Prop :=
  ∀ fd, feed RespParser.step {} (received events fd) =
    (calls n.record fd, .ok (n.server.client fd).parser)

theorem Net.step_parsed {events : List NetEvent} {e : NetEvent} {n n' : Net} (h : Parsed events n)
    (hn : n.step e = .ok n') : Parsed (events ++ [e]) n' := by
  intro fd'
  rw [received_snoc]
  rcases e with fd | ⟨fd, chunk⟩ | fd
  · obtain rfl := Except.ok.inj hn
    dsimp only
    rw [Server.client_setClient, calls, List.foldl_append]
    dsimp only [List.foldl_cons, List.foldl_nil]
    split_ifs with hfd
    · rfl
    · exact h fd'
  · unfold Net.step at hn
    dsimp only at hn
    rcases hf : feed (receiveByte fd) (n.server.ensureClient fd) chunk with ⟨cs, f | s⟩ <;>
      rw [hf] at hn
    · cases hn
    obtain rfl := Except.ok.inj hn
    obtain ⟨hfeed, hothers⟩ := feed_receiveByte hf
    rw [client_ensureClient] at hfeed
    dsimp only
    rw [calls_called]
    split_ifs with hfd
    · subst hfd
      rw [feed_append_ok _ _ (h fd), hfeed]
    · rw [hothers fd' hfd, h fd', Server.ensureClient, Server.client_setClient, if_neg hfd]
  · obtain rfl := Except.ok.inj hn
    dsimp only
    rw [client_disconnect, calls, List.foldl_append]
    dsimp only [List.foldl_cons, List.foldl_nil]
    split_ifs with hfd
    · rfl
    · exact h fd'

theorem run_parsed {events : List NetEvent} {n : Net} (h : run Net.step {} events = .ok n) :
    Parsed events n := by
  have hstep : ∀ pre e n n', [] <+: pre → pre ++ [e] <+: [] ++ events → Parsed pre n →
      Net.step n e = .ok n' → Parsed (pre ++ [e]) n' := fun _ _ _ _ _ _ hr hn =>
    Net.step_parsed hr hn
  exact run_history hstep (fun fd => rfl) h

/-- Whatever comes in on other descriptors, and whatever came in on this one before it was last
accepted: the calls made for the connection are those for the commands complete in its bytes. -/
theorem run_isolated {events : List NetEvent} {n : Net} (h : run Net.step {} events = .ok n)
    {fd : ℤ} {cs : List (List Bytes)} (hcs : ∀ c ∈ cs, Deliverable c)
    (hbytes : received events fd <+: cs.flatMap respCommand) :
    calls n.record fd = completeIn cs (received events fd) := by
  obtain ⟨q, hq, -⟩ := feed_prefix_respCommand hcs hbytes
  exact (Prod.mk.inj ((run_parsed h fd).symm.trans hq)).1

/-- A connection that leaves half a command behind, and one on the same descriptor after it. -/
theorem run_isolated_reused : ∃ n, run Net.step {} [.accept 4,
      .recv 4 ((ascii "*1\r\n$4\r\nEC").map fun c => ({}, c)), .close 4, .accept 4,
      .recv 4 ((ascii "*1\r\n$4\r\nPING\r\n").map fun c => ({}, c))] = .ok n ∧
    calls n.record 4 = [[ascii "PING"]] := by
  have hrun : ∃ n, run Net.step {} [.accept 4,
      .recv 4 ((ascii "*1\r\n$4\r\nEC").map fun c => ({}, c)), .close 4, .accept 4,
      .recv 4 ((ascii "*1\r\n$4\r\nPING\r\n").map fun c => ({}, c))] = .ok n := ⟨_, rfl⟩
  obtain ⟨n, hn⟩ := hrun
  have hcs : ∀ c ∈ [[ascii "PING"]], Deliverable c := by decide
  exact ⟨n, hn, run_isolated hn hcs (by decide)⟩

end DrutaDB
