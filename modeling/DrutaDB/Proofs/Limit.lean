import DrutaDB.Proofs.Expiry
import DrutaDB.Proofs.Restart
import DrutaDB.Proofs.Unevicted

/-!
# The memory limit

Whatever a command does to the store, it leaves the counter within the limit, unless nothing is left
to evict or a counter went below zero at some time (`run_limited`).
-/

namespace DrutaDB

open Machine Decimal Capacity Run

namespace Recency

/-- The counter keeps the limit, unless nothing is left to evict or a counter went below zero. -/
def Limited (r : Recency) : Prop :=
  r.account.wrapped = true ∨ r.nodes.entries = [] ∨ r.account.usage ≤ lruMaxMemory

section Limited

variable {r r' : Recency} {k : Bytes} {v w : DrutaValue}

theorem limited_settle (r : Recency) : r.settle.Limited := by
  rcases RecencyList.shedList_stop Account.exceeds Account.evict r.nodes.entries r.account with
    hstop | hnone
  · exact .inr (.inr (not_lt.1 (of_decide_eq_false hstop)))
  · exact .inr (.inl hnone)

/-- Where there is a key, the limit is kept. -/
theorem Limited.of_find (h : r.Limited) (hv : r.find k = some v) :
    r.account.wrapped = true ∨ r.account.usage ≤ lruMaxMemory :=
  h.imp_right fun h => h.resolve_left (entries_ne_nil_of_find hv)

theorem Limited.touch (h : r.Limited) (ht : r.touch k = .ok r') : r'.Limited := by
  unfold Recency.touch at ht
  rcases hv : r.find k with _ | v <;> rw [hv] at ht
  · cases ht
  · obtain rfl := Except.ok.inj ht
    exact (h.of_find hv).imp_right .inr

theorem Limited.drop (h : r.Limited) (k : Bytes) : (r.drop k).Limited := by
  unfold Recency.drop
  rcases hv : r.find k with _ | v
  · exact h
  have hle : r.account.wrapped = true ∨ r.account.usage ≤ lruMaxMemory := h.of_find hv
  dsimp only
  by_cases hlt : r.account.usage < nodeUsage k v
  · refine .inl ?_
    simp [Account.release, hlt]
  · rcases hle with hwrapped | hle
    · refine .inl ?_
      simp [Account.release, hwrapped]
    · refine .inr (.inr ?_)
      change subSize r.account.usage (nodeUsage k v) ≤ lruMaxMemory
      have hmax : lruMaxMemory < 2 ^ 64 := by decide
      rw [subSize_eq (not_lt.1 hlt) (hle.trans_lt hmax)]
      exact (Nat.sub_le _ _).trans hle

theorem Limited.deleteAll : ∀ (keys : List Bytes) {r : Recency}, r.Limited →
    (Action.deleteAll keys r).2.Limited
  | [], _, h => h
  | key :: keys, r, h => by
    unfold Action.deleteAll
    split
    · exact Limited.deleteAll keys (h.drop key)
    · exact Limited.deleteAll keys h

theorem Limited.assign (h : r.Limited) {change : Option (ℕ × ℕ)} {b : Bool}
    (ha : r.assign k v change b = .ok r') : r'.Limited := by
  rcases change with _ | ⟨oldSize, newSize⟩
  · -- the value is written where it was, and the counter stays
    have hwrite : (r.write k v b).Limited := by
      rcases h with hwrapped | hnone | hle
      · exact .inl (by simp [Recency.write, Account.note, hwrapped])
      · exact .inr (.inl (by simp [Recency.write, RecencyList.replace, hnone]))
      · exact .inr (.inr hle)
    exact hwrite.touch ha
  · exact (limited_settle _).touch ha

theorem Limited.perform (h : r.Limited) {e : Effect} (hp : r.perform k e = .ok r') :
    r'.Limited := by
  rcases e with _ | _ | ⟨v, change, b⟩ | ⟨v, oldSize, newSize, b⟩ | v | ⟨v₀, v, oldSize, newSize, b⟩
    | f
  · exact Except.ok.inj hp ▸ h
  · exact Except.ok.inj hp ▸ h.drop k
  · exact h.assign hp
  · rcases ht : r.touch k with f | q <;> simp only [Recency.perform, ht, bind, Except.bind] at hp
    · cases hp
    · exact Except.ok.inj hp ▸ limited_settle _
  · exact Except.ok.inj hp ▸ limited_settle _
  · simp only [Recency.perform] at hp
    split at hp
    · exact (limited_settle _).assign hp
    · cases hp
  · cases hp

theorem Limited.run (h : r.Limited) {a : Action} {o : Bytes × Bool} (ha : a.run r = .ok (o, r')) :
    r'.Limited := by
  rcases a with ⟨key, f⟩ | m | keys
  · simp only [Action.run, Recency.apply] at ha
    rcases hp : r.perform key (f (r.find key)).effect with x | q <;> rw [hp] at ha
    · cases ha
    · obtain ⟨-, rfl⟩ := Prod.mk.inj (Except.ok.inj ha)
      exact h.perform hp
  · simp only [Action.run] at ha
    rcases hm : m r.toStore with x | q <;> rw [hm] at ha
    · cases ha
    · obtain ⟨-, rfl⟩ := Prod.mk.inj (Except.ok.inj ha)
      exact h
  · obtain ⟨-, rfl⟩ := Prod.mk.inj (Except.ok.inj ha)
    exact Limited.deleteAll keys h

end Limited

end Recency

/-- The store of a server is that of a list that keeps the limit. -/
def Server.Limited (s : Server) : Prop := ∃ r : Recency, s.store = r.toStore ∧ r.Limited

section Runs

variable {s s' : Server} {e : Event} {events : List Event}

theorem Server.Limited.step (h : s.Limited) (hs : s.step e = .ok s') : s'.Limited := by
  obtain ⟨r, hr, hlimited⟩ := h
  obtain ⟨r', hr', htook⟩ := step_took hr hs
  refine ⟨r', hr', ?_⟩
  cases htook with
  | quiet _ _ _ => exact hlimited
  | flush _ _ _ => exact .inr (.inl rfl)
  | act _ hrun _ _ => exact hlimited.run hrun

/-- In every run, the memory that is counted after a command keeps the limit, unless no key is left
or a counter went below zero before. -/
theorem run_limited (h : run Server.step {} events = .ok s) (hw : s.store.wrapped = false) :
    s.store.currentMemoryUsage ≤ lruMaxMemory ∨ s.store.kvStore = ∅ := by
  have hinitial : Server.Limited {} := ⟨.initial, rfl, .inr (.inl rfl)⟩
  have hm : Meets Server.step (fun _ _ => True) {} events := Meets.of_forall (fun _ _ => trivial) _ _
  obtain ⟨r, hr, hwrapped | hnone | hle⟩ :=
    run_invariant (fun _ _ _ hs _ hstep => Server.Limited.step hs hstep) hinitial hm h
  · rw [hr] at hw
    exact absurd (hw.symm.trans hwrapped) Bool.false_ne_true
  · refine .inr ?_
    rw [hr]
    change links none none r.nodes.entries = ∅
    rw [hnone]
    rfl
  · refine .inl ?_
    rw [hr]
    exact hle

/-- Three values that do not fit together, of which the first is evicted. -/
theorem run_limited_thirty : ∃ v s, v.length = 30000000 ∧ run Server.step {}
      [.command {} 4 [ascii "SET", ascii "a", v], .command {} 4 [ascii "SET", ascii "b", v],
        .command {} 4 [ascii "SET", ascii "c", v]] = .ok s ∧ s.store.evicted = [ascii "a"] ∧
    (s.store.currentMemoryUsage ≤ lruMaxMemory ∨ s.store.kvStore = ∅) := by
  obtain ⟨v, hv⟩ : ∃ v : Bytes, v.length = 30000000 := ⟨_, List.length_replicate (a := 0)⟩
  obtain ⟨r, s₁, s₂, s, hs₁, hs₂, hs₃, -, -, -, h, hev, hwrapped, -⟩ :=
    exists_three serves_initial hv
  have hrun := (run_cons_ok hs₁ _).trans ((run_cons_ok hs₂ _).trans (run_cons_ok hs₃ []))
  have hw : s.store.wrapped = false := by
    rw [h.store]
    exact hwrapped
  refine ⟨v, s, hv, hrun, ?_, run_limited hrun hw⟩
  rw [h.store]
  exact hev

end Runs

end DrutaDB
