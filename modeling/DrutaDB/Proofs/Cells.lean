import DrutaDB.Proofs.Delivery
import DrutaDB.Proofs.Eviction
import DrutaDB.Proofs.Restart
import DrutaDB.Proofs.TimeToLive

/-!
# The keys apart

The keys share a list, a counter and a limit, and still each of them is on its own: what a key holds
is what the commands that name it made of it since it was last evicted, and what they are answered
is told from that alone (`run_cells`).
-/

namespace DrutaDB

open Machine Decimal Run

/-! ## One command -/

namespace Recency

variable {r r' : Recency} {k k' : Bytes} {v w : DrutaValue} {e : Effect}

theorem find_of_touch (h : r.touch k = .ok r') (hw : r'.find k' = some w) : r.find k' = some w := by
  by_cases hk : k' = k
  · subst hk
    exact find_touch h hw
  · unfold touch at h
    split at h
    · obtain rfl := Except.ok.inj h
      exact ((RecencyList.find_push _ _ _ _).trans (if_neg hk)).symm.trans hw
    · cases h

theorem find_of_notify {m n : ℕ} (hw : (r.notify m n).find k' = some w) : r.find k' = some w :=
  find_of_settle (r := ⟨r.nodes, r.account.notify m n⟩) hw

theorem find_of_write {b : Bool} (hw : (r.write k v b).find k' = some w) :
    if k' = k then w = v else r.find k' = some w := by
  have hwrite : (r.write k v b).find k' =
      if k' = k then (r.find k).map fun _ => v else r.find k' := RecencyList.find_replace _ _ _ _
  rw [hwrite] at hw
  split_ifs at hw ⊢
  · obtain ⟨-, -, rfl⟩ := Option.map_eq_some_iff.1 hw
    rfl
  · exact hw

theorem find_of_assign {c : Option (ℕ × ℕ)} {b : Bool} (h : r.assign k v c b = .ok r')
    (hw : r'.find k' = some w) : if k' = k then w = v else r.find k' = some w := by
  rcases c with _ | ⟨m, n⟩
  · exact find_of_write (find_of_touch h hw)
  · exact find_of_write (find_of_notify (find_of_touch h hw))

theorem find_of_add (hw : (r.add k v).find k' = some w) :
    if k' = k then w = v else r.find k' = some w := by
  have hpush : (r.nodes.push k v).find k' = some w := find_of_settle hw
  rw [RecencyList.find_push] at hpush
  split_ifs at hpush ⊢
  · exact (Option.some.inj hpush).symm
  · exact hpush

/-- What is left of the keys is what the effect made of them. -/
theorem find_of_perform (h : r.perform k e = .ok r') (hw : r'.find k' = some w) :
    (if k' = k then e.result (r.find k) else r.find k') = some w := by
  have hother : ∀ {u : DrutaValue}, (if k' = k then w = u else r.find k' = some w) →
      (if k' = k then some u else r.find k') = some w := by
    intro u hu
    split_ifs at hu ⊢
    · rw [hu]
    · exact hu
  cases e with
  | keep =>
    obtain rfl := Except.ok.inj h
    split_ifs with hk
    · exact hk ▸ hw
    · exact hw
  | drop =>
    obtain rfl := Except.ok.inj h
    rw [Effect.find_drop] at hw
    exact hw
  | fail f => cases h
  | assign v c b => exact hother (find_of_assign h hw)
  | create v =>
    obtain rfl := Except.ok.inj h
    exact hother (find_of_add hw)
  | pop v m n b =>
    unfold perform at h
    rcases ht : r.touch k with f | q <;> rw [ht] at h
    · cases h
    obtain rfl := Except.ok.inj h
    have hwrite := find_of_write (find_of_notify hw)
    refine hother ?_
    split_ifs at hwrite ⊢
    · exact hwrite
    · exact find_of_touch ht hwrite
  | createAssign v₀ v m n b =>
    unfold perform at h
    dsimp only at h
    split at h
    · have hassign := find_of_assign h hw
      refine hother ?_
      split_ifs at hassign ⊢ with hk
      · exact hassign
      · have hadd := find_of_add hassign
        rwa [if_neg hk] at hadd
    · cases h

/-- A key is evicted, or holds what the effect made of it. -/
theorem perform_find (h : r.perform k e = .ok r') :
    ∃ gone, r'.account.evicted = r.account.evicted ++ gone ∧ ∀ k', r'.find k' =
      if k' ∈ gone then none else if k' = k then e.result (r.find k) else r.find k' := by
  rcases perform_keys h with ⟨rfl, rfl⟩ | ⟨rfl, rfl⟩ | ⟨hkeep, hdrop, gone, hgone, hkeys⟩
  · refine ⟨[], (List.append_nil _).symm, fun k' => ?_⟩
    rw [if_neg List.not_mem_nil]
    split_ifs with hk
    · rw [hk]
      rfl
    · rfl
  · exact ⟨[], ((List.append_nil _).trans (Effect.evicted_drop r k).symm).symm,
      fun k' => Effect.find_drop r k k'⟩
  · refine ⟨gone, hgone, fun k' => ?_⟩
    have hnodup : (gone ++ r'.nodes.keys).Nodup := by
      have hpush := (r.nodes.push k (.ofString [] 0)).nodup
      rwa [← RecencyList.keys, RecencyList.keys_push, ← hkeys] at hpush
    by_cases hmem : k' ∈ gone
    · rw [if_pos hmem]
      refine RecencyList.find_eq_none_iff.2 fun hin => ?_
      exact (List.nodup_append.1 hnodup).2.2 k' hmem k' hin rfl
    · rw [if_neg hmem]
      rcases hf : r'.find k' with _ | w
      · have hnone : k' ∉ (r.nodes.remove k).keys ++ [k] := by
          rw [← hkeys, List.mem_append, not_or]
          exact ⟨hmem, RecencyList.find_eq_none_iff.1 hf⟩
        rw [List.mem_append, not_or, List.mem_singleton] at hnone
        have hfind := RecencyList.find_eq_none_iff.2 hnone.1
        rw [RecencyList.find_remove, if_neg hnone.2] at hfind
        rw [if_neg hnone.2]
        exact hfind.symm
      · exact (find_of_perform h hf).symm

end Recency

/-- What a change makes of the value of a key, told from that value. -/
def Change.cell (key : Bytes) (o : Option DrutaValue) : Change → Option DrutaValue
  | .quiet => o
  | .flush => none
  | .act (.access k f) => if key = k then (f o).effect.result o else o
  | .act (.inspect _) => o
  | .act (.delete keys) => if keys.contains key then none else o

section Steps

variable {events : List Event} {r : Recency} {s s' : Server} {env : Env} {fd : ℤ}
  {args : List Bytes} {e : Event} {key : Bytes}

/-- After a step, a key is evicted, or holds what the step made of it. -/
theorem step_cell (hs : s.store = r.toStore) (h : s.step e = .ok s') :
    ∃ gone, s'.store.evicted = s.store.evicted ++ gone ∧ ∀ key, s'.store.value key =
      if key ∈ gone then none else (e.change s).cell key (s.store.value key) := by
  obtain ⟨r', hr', htook⟩ := step_took hs h
  simp only [hs, hr', value_toStore]
  cases htook with
  | quiet hc _ _ =>
    refine ⟨[], (List.append_nil _).symm, fun key => ?_⟩
    rw [hc, if_neg List.not_mem_nil]
    rfl
  | flush hc _ _ =>
    refine ⟨[], (List.append_nil _).symm, fun key => ?_⟩
    rw [hc, if_neg List.not_mem_nil]
    rfl
  | @act env fd args a reply ok r' s' hc hrun _ _ =>
    rw [hc]
    rcases a with ⟨k, f⟩ | m | keys
    · obtain ⟨-, -, hp⟩ := apply_ok hrun
      obtain ⟨gone, hgone, hfind⟩ := Recency.perform_find hp
      refine ⟨gone, hgone, fun key => ?_⟩
      rw [hfind key, Change.cell]
      split_ifs with hmem hk
      · rfl
      · rw [hk]
      · rfl
    · simp only [Action.run] at hrun
      rcases hm : m r.toStore with x | q <;> rw [hm] at hrun
      · cases hrun
      obtain ⟨-, rfl⟩ := Prod.mk.inj (Except.ok.inj hrun)
      refine ⟨[], (List.append_nil _).symm, fun key => ?_⟩
      rw [if_neg List.not_mem_nil]
      rfl
    · obtain ⟨-, rfl⟩ := Prod.mk.inj (Except.ok.inj hrun)
      refine ⟨[], ?_, fun key => ?_⟩
      · rw [List.append_nil]
        exact evicted_deleteAll keys r
      · rw [if_neg List.not_mem_nil, find_deleteAll keys r key]
        simp only [Change.cell, List.contains_iff_mem]

/-- The command as its connection's moves have it: one that listens to a channel is turned away, or
works on no key. -/
def changeOf (before : List Event) : Event → Change
  | .command env fd args =>
    if joined (moves before fd) = [] then (callOf args).change env.now args else .quiet
  | _ => .quiet

theorem joined_eq_nil_iff (h : Tracks events s) (fd : ℤ) :
    joined (moves events fd) = [] ↔ (s.client fd).isSubscriber = false := by
  rw [← Bool.not_eq_true, h.isSubscriber_iff, ne_eq, not_not, ← List.length_eq_zero_iff,
    length_joined (h.follows fd), Std.ExtTreeSet.eq_empty_iff_size_eq_zero]

/-- What a subscriber may send works on no key. -/
theorem change_of_allowed {now : ℤ} (hname : toUpper (args.headD []) = ascii "PING" ∨
    toUpper (args.headD []) = ascii "SUBSCRIBE" ∨ toUpper (args.headD []) = ascii "UNSUBSCRIBE") :
    (callOf args).change now args = .quiet := by
  by_cases hunknown : callOf args = .unknown
  · rw [hunknown]
    rfl
  rw [(of_route hunknown rfl).1] at hname
  generalize callOf args = c at hname hunknown
  cases c
  case ping => rfl
  case subscribe => rfl
  case unsubscribe => rfl
  case unknown => exact absurd rfl hunknown
  all_goals exact absurd hname (by decide)

theorem change_eq (h : Tracks events s) (e : Event) : e.change s = changeOf events e := by
  rcases e with fd | fd | ⟨env, fd, args⟩
  · rfl
  · rfl
  · have hiff := joined_eq_nil_iff h fd
    simp only [Event.change, changeOf]
    rcases hsub : (s.client fd).isSubscriber with _ | _
    · rw [if_pos (hiff.2 hsub), turnedAway, hsub]
      simp
    · have hjoined : joined (moves events fd) ≠ [] := fun hc => by
        rw [hiff.1 hc] at hsub
        cases hsub
      rw [if_neg hjoined]
      split_ifs with ht
      · rfl
      · refine change_of_allowed ?_
        simp only [turnedAway, hsub, Bool.true_and, Bool.and_eq_true, decide_eq_true_eq] at ht
        tauto

/-- A command on a key is answered from what that key holds. -/
theorem answer_access {f : Option DrutaValue → Outcome} (hs : s.store = r.toStore)
    (ht : turnedAway s fd (toUpper (args.headD [])) = false)
    (ha : (callOf args).action env.now args = some (.access key f))
    (h : s.step (.command env fd args) = .ok s') :
    (handleCommand env fd args s).1 = sendTo fd (f (s.store.value key)).reply := by
  rcases args with _ | ⟨a, as⟩
  · cases h
  have hcall : route (toUpper a) (a :: as).length = callOf (a :: as) := rfl
  have ht' : ¬ turnedAway s fd (toUpper a) = true := by
    rw [Bool.not_eq_true]
    exact ht
  change (handleCommand env fd (a :: as) s).2 = .ok s' at h
  simp only [handleCommand, turnedAway_ensureClient, if_neg ht', hcall,
    Call.run_action r env.now (a :: as) ha fd (toUpper a) (s := s.ensureClient fd) hs] at h ⊢
  rcases hrun : (Action.access key f).run r with x | ⟨⟨reply, ok⟩, r'⟩ <;> rw [hrun] at h
  · cases h
  · rw [hs, value_toStore, (apply_ok hrun).1]
    rfl

end Steps

/-! ## Runs -/

/-- The last event of the history evicts the key. -/
def Evicts (events : List Event) (key : Bytes) : Prop :=
  ∃ pre e s s' gone, events = pre ++ [e] ∧ run Server.step {} pre = .ok s ∧ s.step e = .ok s' ∧
    s'.store.evicted = s.store.evicted ++ gone ∧ key ∈ gone

/-- What the commands made of a key, from a moment on when it was not there. -/
def cellAfter (key : Bytes) (before events : List Event) : Option DrutaValue :=
  since (fun before e o => (changeOf before e).cell key o) before events none

/-- In every state a run leads to, a key holds what the commands that name it made of it since it
was last evicted, and a command on it is answered from that. -/
theorem run_cells {events : List Event} {s : Server} (ho : Orderly events)
    (h : run Server.step {} events = .ok s) (key : Bytes) :
    (∃ pre post, events = pre ++ post ∧ (pre = [] ∨ Evicts pre key) ∧
      s.store.value key = cellAfter key pre post) ∧
    ∀ env fd args f s', (callOf args).action env.now args = some (.access key f) →
      joined (moves events fd) = [] → s.step (.command env fd args) = .ok s' →
        (handleCommand env fd args s).1 = sendTo fd (f (s.store.value key)).reply := by
  obtain ⟨r, hr⟩ := exists_store h
  refine ⟨?_, fun env fd args f s' ha hjoined hs => ?_⟩
  · refine run_since (v := fun s => s.store.value key) (R := (Evicts · key))
      (J := fun _ _ => True) (fun pre e t t' hpre ht _ hstep => ⟨trivial, ?_⟩) trivial rfl h
    obtain ⟨q, hq⟩ := exists_store ht
    have hpreorder : Orderly pre := fun us d hd =>
      ho us d (hd.trans ((List.prefix_append _ _).trans hpre))
    obtain ⟨gone, hgone, hvalue⟩ := step_cell hq hstep
    rw [hvalue key]
    by_cases hmem : key ∈ gone
    · rw [if_pos hmem]
      exact .inr ⟨⟨pre, e, t, t', gone, rfl, ht, hstep, hgone, hmem⟩, rfl⟩
    · rw [if_neg hmem, change_eq (run_tracks hpreorder ht) e]
      exact .inl rfl
  · refine answer_access hr ?_ ha hs
    rw [turnedAway, (joined_eq_nil_iff (run_tracks ho h) fd).1 hjoined]
    simp

/-- A server with a connection. -/
theorem serves_connected : Serves (({} : Server).setClient 4 {}) .initial [] :=
  ⟨⟨rfl, rfl, by simp⟩, rfl, fun fd => by
    rw [Server.client_setClient]
    split_ifs
    · rfl
    · exact serves_initial.normal fd⟩

/-- A connection that sets a key. -/
theorem exists_run_connected (now : ℤ) : ∃ s, run Server.step {}
      [.connect 4, .command { now := now } 4 [ascii "SET", ascii "k", ascii "v"]] = .ok s ∧
    Orderly [.connect 4, .command { now := now } 4 [ascii "SET", ascii "k", ascii "v"]] ∧
    Serves s (Recency.initial.add (ascii "k") (.ofString (ascii "v") 0))
      [[ascii "SET", ascii "k", ascii "v"]] := by
  have hcheck : ({ now := now } : Env).sinceCheck < 5 := by simp
  obtain ⟨s, hs, hset⟩ := step_serves { now := now } 4 [ascii "SET", ascii "k", ascii "v"]
    serves_connected rfl (run_set (v := ascii "v") rfl now) hcheck (by decide) (by decide)
  have hconnect : Orderly [.connect 4] := orderly_snoc [] _ orderly_nil ⟨by decide, rfl⟩
  exact ⟨s, (run_cons_ok rfl _).trans (run_cons_ok hs []),
    orderly_snoc [_] _ hconnect (.inl rfl), hset⟩

/-- Three keys of thirty million bytes, of which the first is evicted. -/
theorem run_cells_thirty : ∃ v s, v.length = 30000000 ∧ run Server.step {} [.connect 4,
      .command {} 4 [ascii "SET", ascii "a", v], .command {} 4 [ascii "SET", ascii "b", v],
      .command {} 4 [ascii "SET", ascii "c", v]] = .ok s ∧
    s.store.evicted = [ascii "a"] ∧ s.store.value (ascii "a") = none ∧
    ∀ key, ∃ pre post, [Event.connect 4, .command {} 4 [ascii "SET", ascii "a", v],
        .command {} 4 [ascii "SET", ascii "b", v], .command {} 4 [ascii "SET", ascii "c", v]] =
      pre ++ post ∧ (pre = [] ∨ Evicts pre key) ∧ s.store.value key = cellAfter key pre post := by
  obtain ⟨v, hv⟩ : ∃ v : Bytes, v.length = 30000000 := ⟨_, List.length_replicate (a := 0)⟩
  obtain ⟨r, s₁, s₂, s, hs₁, hs₂, hs₃, -, -, -, h, hev, -, hgone⟩ :=
    exists_three serves_connected hv
  have hrun := (run_cons_ok (s := ({} : Server)) (e := .connect 4) rfl _).trans
    ((run_cons_ok hs₁ _).trans ((run_cons_ok hs₂ _).trans (run_cons_ok hs₃ [])))
  have hconnect : Orderly [.connect 4] := orderly_snoc [] _ orderly_nil ⟨by decide, rfl⟩
  have ho := orderly_snoc [_, _, _] (.command {} 4 [ascii "SET", ascii "c", v])
    (orderly_snoc [_, _] (.command {} 4 [ascii "SET", ascii "b", v])
      (orderly_snoc [_] (.command {} 4 [ascii "SET", ascii "a", v]) hconnect (.inl rfl))
      (.inl rfl)) (.inl rfl)
  refine ⟨v, s, hv, hrun, ?_, ?_, fun key => (run_cells ho hrun key).1⟩
  · rw [h.store]
    exact hev
  · rw [h.store, value_toStore, hgone]

end DrutaDB
