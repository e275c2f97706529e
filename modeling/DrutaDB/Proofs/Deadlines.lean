import DrutaDB.Proofs.Lifetime
import DrutaDB.Proofs.Logging

/-!
# Deadlines and restarts

A `SET` with `EX` or `PX` is logged as it came in, so its replay counts the lifetime from the
clock of the restart: of every key the deadline is moved by the time between its last `SET` and
the restart (`Restamped`), and stays only where that is none (`deadlines_iff`).
-/

namespace DrutaDB

open Machine Decimal Capacity Run Store

/-- The lifetime in milliseconds that the last of the options asks for, unless it is a deadline. -/
def lifetime : List Bytes → Option ℤ → Option ℤ
  | opt :: val :: rest, d =>
    if toUpper opt = ascii "EX" then
      match stoll val with
      | .ok seconds => lifetime rest (some (seconds * 1000))
      | .error _ => none
    else if toUpper opt = ascii "PX" then
      match stoll val with
      | .ok ms => lifetime rest (some ms)
      | .error _ => none
    else if toUpper opt = ascii "PXAT" then
      match stoll val with
      | .ok _ => lifetime rest none
      | .error _ => none
    else lifetime (val :: rest) d
  | _, d => d

/-- A `SET` with a positive lifetime that a client sends, before the restart. -/
def Event.SetsLifetime (restart : ℤ) : Event → Prop
  | .command env fd args => fd ≠ -1 ∧ callOf args = .set ∧ -2 ^ 63 ≤ env.now ∧ env.now ≤ restart ∧
      ∃ d, lifetime (args.drop 3) none = some d ∧ 0 < d ∧ d < 2 ^ 63 ∧ restart + d < 2 ^ 63
  | _ => False

/-- The clock at the last event that names the key. -/
def lastSet (events : List Event) (key : Bytes) : Option ℤ :=
  events.foldl (fun t e =>
    match e with
    | .command env _ args => if key = arg args 1 then some env.now else t
    | _ => t) none

/-- The deadline of a key. -/
def deadline (s : Store) (key : Bytes) : Option ℤ := (s.value key).map (·.expiryTime)

/-! ## Options -/

section Options

theorem toLong_add_toLong (a b : ℤ) : toLong (a + toLong b) = toLong (a + b) := by
  unfold toLong
  exact Int.add_bmod_bmod

/-- A `SET` with a lifetime counts it from the clock. -/
theorem setOptions_lifetime (now : ℤ) : ∀ (l : List Bytes) (acc : Option ℤ) (e : ℤ) {d : ℤ},
    (∀ d, acc = some d → e = toLong (now + d)) → lifetime l acc = some d →
      setOptions now l e = .ok (toLong (now + d))
  | [], _, _, _, hacc, h => congrArg Except.ok (hacc _ h)
  | [_], _, _, _, hacc, h => congrArg Except.ok (hacc _ h)
  | opt :: val :: rest, acc, e, d, hacc, h => by
    unfold lifetime at h
    unfold setOptions
    split_ifs at h ⊢
    · rcases hv : stoll val with f | n <;> rw [hv] at h
      · cases h
      · refine setOptions_lifetime now rest _ _ (fun d hd => ?_) h
        rw [← Option.some.inj hd, toLong_add_toLong]
    · rcases hv : stoll val with f | n <;> rw [hv] at h
      · cases h
      · exact setOptions_lifetime now rest _ _ (fun d hd => by rw [← Option.some.inj hd]) h
    · rcases hv : stoll val with f | n <;> rw [hv] at h
      · cases h
      · exact setOptions_lifetime now rest _ _ (fun d hd => by cases hd) h
    · exact setOptions_lifetime now (val :: rest) acc e hacc h

end Options

/-! ## Moved deadlines -/

/-- The second value is the first with its deadline moved to the restart. -/
def Restamped (restart : ℤ) (T : Bytes → Option ℤ) (k : Bytes) (v w : DrutaValue) : Prop :=
  ∃ t, T k = some t ∧ w = { v with expiryTime := v.expiryTime + (restart - t) }

section Moved

variable {restart now d : ℤ} {T : Bytes → Option ℤ} {r r' q : Recency} {args : List Bytes}
  {k k' : Bytes} {v w : DrutaValue}

theorem Restamped.nodeUsage (h : Restamped restart T k v w) : nodeUsage k v = nodeUsage k w := by
  obtain ⟨t, -, rfl⟩ := h
  rfl

/-- The list of the restart: the same keys and counters, with the deadlines moved. -/
structure Moved (restart : ℤ) (T : Bytes → Option ℤ) (r q : Recency) : Prop where
  nodes : r.nodes.Related (Restamped restart T) q.nodes
  account : q.account = r.account

theorem Moved.settle (h : Moved restart T r q) : Moved restart T r.settle q.settle := by
  have hdrop : ∀ (a : Account) k v w, Restamped restart T k v w →
      a.evict (k, v) = a.evict (k, w) := by
    intro a k v w hvw
    simp only [Account.evict, Account.release, hvw.nodeUsage]
  obtain ⟨hnodes, haccount⟩ := h.nodes.shed Account.exceeds hdrop r.account
  unfold Recency.settle
  rw [h.account]
  exact ⟨hnodes, haccount.symm⟩

/-- A time for the key only matters to the key. -/
theorem restamped_update (t : ℤ) (k' : Bytes) (v w : DrutaValue) (hk : k' ≠ k)
    (h : Restamped restart T k' v w) :
    Restamped restart (Function.update T k (some t)) k' v w := by
  obtain ⟨u, hu, hw⟩ := h
  exact ⟨u, by rw [Function.update_of_ne hk, hu], hw⟩

theorem Moved.touch (h : Moved restart T r q) (ht : r.touch k = .ok r') :
    ∃ q', q.touch k = .ok q' ∧ Moved restart T r' q' := by
  unfold Recency.touch at ht ⊢
  rcases h.nodes.find k with ⟨hr, hq⟩ | ⟨v, w, hr, hq, hvw⟩
  · rw [Recency.find, hr] at ht
    cases ht
  · rw [Recency.find, hr] at ht
    obtain rfl := Except.ok.inj ht
    rw [Recency.find, hq]
    exact ⟨_, rfl, h.nodes.push (fun _ _ _ _ h => h) hvw, h.account⟩

/-- A `SET` and its replay. -/
theorem Moved.set (h : Moved restart T r q) {x : Bytes × Bool}
    (hlive : setOptions now (args.drop 3) 0 = .ok (now + d))
    (hreplay : setOptions restart (args.drop 3) 0 = .ok (restart + d))
    (hrun : (Action.access (arg args 1) (setOutcome now args)).run r = .ok (x, r')) :
    x.2 = true ∧ ∃ q', (Action.access (arg args 1) (setOutcome restart args)).run q = .ok (x, q') ∧
      Moved restart (Function.update T (arg args 1) (some now)) r' q' := by
  set key := arg args 1 with hkey
  have hnew : Restamped restart (Function.update T key (some now)) key
      (.ofString (arg args 2) (now + d)) (.ofString (arg args 2) (restart + d)) := by
    refine ⟨now, Function.update_self _ _ _, ?_⟩
    have hmoved : now + d + (restart - now) = restart + d := by omega
    simp only [DrutaValue.ofString, hmoved]
  simp only [Action.run, setOutcome, hlive, hreplay, ← hkey] at hrun ⊢
  rcases h.nodes.find key with ⟨hr, hq⟩ | ⟨v, w, hr, hq, hvw⟩
  · simp only [Recency.find, hr, hq, Recency.apply, Recency.perform] at hrun ⊢
    obtain ⟨rfl, rfl⟩ := Prod.mk.inj (Except.ok.inj hrun)
    refine ⟨rfl, _, rfl, Moved.settle ⟨h.nodes.push (restamped_update now) hnew, ?_⟩⟩
    rw [h.account, hnew.nodeUsage]
  · simp only [Recency.find, hr, hq, Recency.apply, Recency.perform, Recency.assign] at hrun ⊢
    have hwrite : Moved restart (Function.update T key (some now))
        ((r.write key (.ofString (arg args 2) (now + d)) false).notify
          (nodeUsage key v) (nodeUsage key (.ofString (arg args 2) (now + d))))
        ((q.write key (.ofString (arg args 2) (restart + d)) false).notify
          (nodeUsage key w) (nodeUsage key (.ofString (arg args 2) (restart + d)))) := by
      refine Moved.settle ⟨h.nodes.replace (restamped_update now) hnew, ?_⟩
      simp only [Recency.write, h.account, hvw.nodeUsage, hnew.nodeUsage]
    rcases ht : Recency.touch ((r.write key (.ofString (arg args 2) (now + d)) false).notify
      (nodeUsage key v) (nodeUsage key (.ofString (arg args 2) (now + d)))) key with f | r₁ <;>
      rw [ht] at hrun
    · cases hrun
    · obtain ⟨rfl, rfl⟩ := Prod.mk.inj (Except.ok.inj hrun)
      obtain ⟨q₁, hq₁, hmoved⟩ := hwrite.touch ht
      rw [hq₁]
      exact ⟨rfl, q₁, rfl, hmoved⟩

end Moved

/-! ## Runs -/

section Runs

variable {restart : ℤ} {s s' : Server} {events : List Event} {e : Event}

/-- What a run of such commands keeps: nobody is subscribed, and the log is replayed at the restart
to the same list with moved deadlines. -/
structure Restarts (restart : ℤ) (events : List Event) (s : Server) : Prop where
  store : ∃ r : Recency, s.store = r.toStore
  normal : ∀ fd, (s.client fd).isSubscriber = false
  replay : s.rewrites = 0 → ∃ r cs q, Holds s r cs ∧ replayList restart cs .initial = .ok q ∧
    Moved restart (lastSet events) r q

theorem lastSet_snoc (events : List Event) (env : Env) (fd : ℤ) (args : List Bytes) :
    lastSet (events ++ [.command env fd args]) =
      Function.update (lastSet events) (arg args 1) (some env.now) := by
  funext key
  unfold lastSet
  rw [List.foldl_append, List.foldl_cons, List.foldl_nil, Function.update_apply]

theorem setsLifetime_options {env : Env} {fd : ℤ} {args : List Bytes}
    (he : (Event.command env fd args).SetsLifetime restart) :
    ∃ d, setOptions env.now (args.drop 3) 0 = .ok (env.now + d) ∧
      setOptions restart (args.drop 3) 0 = .ok (restart + d) := by
  obtain ⟨-, -, hnow, hle, d, hd, hpos, hlt, hsum⟩ := he
  refine ⟨d, ?_, ?_⟩
  · rw [setOptions_lifetime env.now _ none 0 (by simp) hd, toLong_eq (by omega) (by omega)]
  · rw [setOptions_lifetime restart _ none 0 (by simp) hd, toLong_eq (by omega) (by omega)]

theorem step_restarts (hr : Restarts restart events s) (he : e.SetsLifetime restart)
    (hs : s.step e = .ok s') : Restarts restart (events ++ [e]) s' := by
  rcases e with fd | fd | ⟨env, fd, args⟩
  · cases he
  · cases he
  obtain ⟨d, hlive, hreplay⟩ := setsLifetime_options he
  obtain ⟨hfd, hcall, -⟩ := he
  have hclient : (Event.command env fd args).FromClient := hfd
  rcases args with _ | ⟨a, as⟩
  · cases hs
  have hact : (callOf (a :: as)).action env.now (a :: as) =
      some (.access (arg (a :: as) 1) (setOutcome env.now (a :: as))) := by
    rw [hcall]
    rfl
  have hc : (Event.command env fd (a :: as)).change s =
      .act (.access (arg (a :: as) 1) (setOutcome env.now (a :: as))) := by
    have hturn : turnedAway s fd (toUpper a) = false := by simp [turnedAway, hr.normal]
    rw [change_command, hturn]
    simp only [Bool.false_eq_true, if_false, Call.change, hact]
  obtain ⟨r, hst⟩ := hr.store
  obtain ⟨r', hst', htook⟩ := step_took hst hs
  refine ⟨⟨r', hst'⟩, fun fd' => ?_, fun hrw => ?_⟩
  · change (handleCommand env fd (a :: as) s).2 = .ok s' at hs
    rcases handleCommand_act hst hc with ⟨f, -, hf⟩ | ⟨reply, ok, r', -, ⟨t, ht, -, hcl, -⟩ |
      ⟨-, -, e, he⟩⟩
    · rw [hf] at hs
      cases hs
    · obtain rfl := Except.ok.inj (ht.symm.trans hs)
      rw [Server.client, hcl]
      exact (congrArg Client.isSubscriber (client_ensureClient_of s fd fd')).trans (hr.normal fd')
    · rw [he] at hs
      cases hs
  · have hle := htook.rewrites_le
    obtain ⟨r, cs, q, hholds, hq, hmoved⟩ := hr.replay (by omega)
    obtain ⟨r', cs', hholds', hlog⟩ := step_logged hholds hclient hs (by omega)
    cases hlog with
    | quiet hq =>
      rw [hc] at hq
      cases hq
    | flush hf =>
      rw [hc] at hf
      cases hf
    | unlogged hc' hrun =>
      rw [hc] at hc'
      obtain rfl := Change.act.inj hc'
      obtain ⟨hok, -⟩ := hmoved.set hlive hreplay hrun
      cases hok
    | logged hc' hrun =>
      rw [hc] at hc'
      obtain rfl := Change.act.inj hc'
      obtain ⟨-, q', hq', hmoved'⟩ := hmoved.set hlive hreplay hrun
      refine ⟨r', cs ++ [a :: as], q', hholds', ?_, ?_⟩
      · have hone : (callOf (a :: as)).action restart (a :: as) =
            some (.access (arg (a :: as) 1) (setOutcome restart (a :: as))) := by
          rw [hcall]
          rfl
        rw [replayList_snoc, hq, Except.bind, replayOne_eq hone, hq']
        rfl
      · rw [lastSet_snoc]
        exact hmoved'

theorem run_restarts (hevents : ∀ e ∈ events, e.SetsLifetime restart)
    (h : run Server.step {} events = .ok s) : Restarts restart events s := by
  have hstart : Restarts restart [] {} := by
    refine ⟨⟨.initial, rfl⟩, fun fd => by simp [Server.client], fun _ => ?_⟩
    exact ⟨.initial, [], .initial, ⟨rfl, rfl, by simp⟩, rfl, RecencyList.related_empty, rfl⟩
  refine run_history (J := Restarts restart) (fun pre e s s' _ hpre hr hs => ?_) hstart h
  exact step_restarts hr (hevents e (hpre.subset (List.mem_append_right _ List.mem_cons_self))) hs

end Runs

/-- After the restart the keys have the deadlines they had before it exactly where none of them
was set before the clock of the restart. -/
theorem deadlines_iff {events : List Event} {s : Server} {env : Env}
    (hevents : ∀ e ∈ events, e.SetsLifetime env.now) (h : run Server.step {} events = .ok s)
    (hrw : s.rewrites = 0) (hlen : s.aof.length < 2 ^ 31) :
    ∃ s', replayCommands env { aof := s.aof } = .ok s' ∧
      ((∀ key, deadline s'.store key = deadline s.store key) ↔
        ∀ key, (s.store.value key).isSome → lastSet events key = some env.now) := by
  obtain ⟨r, cs, q, hholds, hq, hmoved⟩ := (run_restarts hevents h).replay hrw
  rw [hholds.aof] at hlen ⊢
  obtain ⟨s', hs', hst⟩ := replayCommands_log env hholds.loggable hlen hq
  refine ⟨s', hs', forall_congr' fun key => ?_⟩
  rw [deadline, deadline, hst, hholds.store, value_toStore, value_toStore]
  unfold Recency.find
  rcases hmoved.nodes.find key with ⟨hr, hq⟩ | ⟨v, w, hr, hq, t, ht, rfl⟩
  · rw [hr, hq]
    exact iff_of_true rfl fun hsome => by cases hsome
  · rw [hr, hq, ht]
    simp only [Option.map_some, Option.some.injEq, Option.isSome_some, true_implies]
    omega

/-- A key with a lifetime. -/
theorem exists_lifetime : ∃ s : Server, run Server.step {} [.command {} 4
      [ascii "SET", ascii "k", ascii "v", ascii "PX", ascii "5"]] = .ok s ∧
    Serves s (Recency.initial.add (ascii "k") (.ofString (ascii "v") 5))
      [[ascii "SET", ascii "k", ascii "v", ascii "PX", ascii "5"]] := by
  obtain ⟨s, hs, h⟩ := step_serves {} 4 [ascii "SET", ascii "k", ascii "v", ascii "PX", ascii "5"]
    serves_initial rfl (run_setOptions rfl (show setOptions 0 [ascii "PX", ascii "5"] 0 = .ok 5
      by decide)) (by decide) (by decide) (by decide)
  exact ⟨s, run_cons_ok hs [], h⟩

theorem setsLifetime_px {restart : ℤ} (hle : 0 ≤ restart) (hlt : restart + 5 < 2 ^ 63) :
    ∀ e ∈ [Event.command {} 4 [ascii "SET", ascii "k", ascii "v", ascii "PX", ascii "5"]],
      e.SetsLifetime restart := by
  intro e he
  obtain rfl := List.mem_singleton.1 he
  exact ⟨by decide, rfl, by decide, hle, 5, rfl, by decide, by decide, hlt⟩

/-- A restart at the clock of the `SET`. -/
theorem deadlines_iff_at_once : ∃ s s' : Server, run Server.step {} [.command {} 4
      [ascii "SET", ascii "k", ascii "v", ascii "PX", ascii "5"]] = .ok s ∧
    replayCommands {} { aof := s.aof } = .ok s' ∧
      ∀ key, deadline s'.store key = deadline s.store key := by
  obtain ⟨s, hs, h⟩ := exists_lifetime
  obtain ⟨s', hs', hiff⟩ := @deadlines_iff _ s {} (setsLifetime_px le_rfl (by decide)) hs
    h.rewrites (by rw [h.aof]; decide)
  refine ⟨s, s', hs, hs', hiff.2 fun key hkey => ?_⟩
  rw [h.store, value_toStore] at hkey
  obtain ⟨v, hv⟩ := Option.isSome_iff_exists.1 hkey
  obtain ⟨rfl, -⟩ := Prod.mk.inj (List.mem_singleton.1 (RecencyList.find_eq_some_iff.1 hv))
  rfl

/-- A key whose deadline passed before the restart is readable again after it. -/
theorem restart_moves_deadline : ∃ (events : List Event) (s s' : Server) (env : Env),
    (∀ e ∈ events, e.SetsLifetime env.now) ∧ run Server.step {} events = .ok s ∧ s.rewrites = 0 ∧
      s.aof.length < 2 ^ 31 ∧ replayCommands env { aof := s.aof } = .ok s' ∧
        deadline s'.store (ascii "k") ≠ deadline s.store (ascii "k") ∧
        (commandGet env.now [ascii "GET", ascii "k"] s.store).map (·.1.1) = .ok nilReply ∧
        (commandGet env.now [ascii "GET", ascii "k"] s'.store).map (·.1.1) =
          .ok (respBulkString (ascii "v")) := by
  obtain ⟨s, hs, h⟩ := exists_lifetime
  have hlen : s.aof.length < 2 ^ 31 := by
    rw [h.aof]
    decide
  have hlog : replayList 10 [[ascii "SET", ascii "k", ascii "v", ascii "PX", ascii "5"]] .initial =
      .ok (Recency.initial.add (ascii "k") (.ofString (ascii "v") 15)) := by
    have hopts : setOptions 10 [ascii "PX", ascii "5"] 0 = .ok 15 := by decide
    have hact : (callOf [ascii "SET", ascii "k", ascii "v", ascii "PX", ascii "5"]).action 10
        [ascii "SET", ascii "k", ascii "v", ascii "PX", ascii "5"] = some (.access (ascii "k")
          (setOutcome 10 [ascii "SET", ascii "k", ascii "v", ascii "PX", ascii "5"])) := rfl
    rw [replayList, replayOne_eq hact, run_setOptions rfl hopts]
    rfl
  obtain ⟨s', hs', hst⟩ : ∃ s', replayCommands { now := 10 } { aof := s.aof } = .ok s' ∧
      s'.store = (Recency.initial.add (ascii "k") (.ofString (ascii "v") 15)).toStore := by
    rw [h.aof] at hlen ⊢
    exact replayCommands_log { now := 10 } h.loggable hlen hlog
  refine ⟨_, s, s', { now := 10 }, setsLifetime_px (by decide) (by decide), hs, h.rewrites, hlen,
    hs', ?_, ?_, ?_⟩
  · rw [hst, h.store]
    decide
  · rw [h.store]
    rfl
  · rw [hst]
    rfl

end DrutaDB
