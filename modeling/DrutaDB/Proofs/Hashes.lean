import DrutaDB.Proofs.Outcomes

/-!
# The loops over a hash

Writing a value that is already there changes nothing, its capacities and counter included
(`hsetLoop_self`), and a loop that creates no field was given only fields that are there
(`getHash_isSome_of_hsetLoop`).
-/

namespace DrutaDB

open Machine Decimal Capacity

/-- The fields and values `HSET` is given. -/
def pairs : List Bytes → List (Bytes × Bytes)
  | field :: value :: l => (field, value) :: pairs l
  | _ => []

namespace DrutaHash

variable {h : DrutaHash} {field value : Bytes}

theorem assign_self (c : CString) : c.assign c.bytes = c := by
  have hfits : c.bytes.length ≤ c.capacity := (le_max_right 15 _).trans c.fits
  cases c
  simp [CString.assign, CString.assignCapacity, hfits]

theorem addSize_subSize {m : ℕ} (hm : m < 2 ^ 64) (c : ℕ) : addSize (subSize m c) c = m := by
  unfold addSize subSize toSize
  omega

theorem assignVec_self : ∀ {vec : List (CString × CString)} {p : CString × CString},
    vec.find? (·.1.bytes = field) = some p → assignVec field p.2.bytes vec = vec
  | [], _, hp => by simp at hp
  | q :: vec, p, hp => by
    unfold assignVec
    rw [List.find?_cons] at hp
    split_ifs with hq
    · simp only [hq, decide_true, Option.some.injEq] at hp
      rw [hp, assign_self, ← hp]
    · simp only [hq, decide_false] at hp
      rw [assignVec_self hp]

/-- Writing the value a field has. -/
theorem setHash_self (hm : h.memoryUsage < 2 ^ 64) (hget : h.getHash field = some value) :
    h.setHash field value = (h, false) := by
  rcases h with ⟨m | vec, usage⟩
  · simp only [getHash, entry, Option.map_map, Option.map_eq_some_iff, Function.comp] at hget
    obtain ⟨old, hold, rfl⟩ := hget
    have hm' : m.insert field old = m := by
      refine Std.ExtTreeMap.ext_getElem? fun k => ?_
      rw [Std.ExtTreeMap.getElem?_insert]
      split_ifs with hk
      · rw [← Std.LawfulEqCmp.eq_of_compare hk, hold]
      · rfl
    simp only [setHash, hold, assign_self, hm', addSize_subSize hm]
  · simp only [getHash, entry, Option.map_eq_some_iff] at hget
    obtain ⟨p, hp, rfl⟩ := hget
    simp only [setHash, hp, assignVec_self hp, assign_self, addSize_subSize hm]

theorem find?_assignVec_isSome (value : Bytes) (f : Bytes) :
    ∀ vec : List (CString × CString), ((assignVec field value vec).find? (·.1.bytes = f)).isSome =
      (vec.find? (·.1.bytes = f)).isSome
  | [] => rfl
  | p :: vec => by
    unfold assignVec
    split_ifs
    · by_cases hf : p.1.bytes = f <;> simp [hf]
    · by_cases hf : p.1.bytes = f
      · simp [hf]
      · simpa [List.find?_cons, hf] using find?_assignVec_isSome value f vec

theorem setHash_isSome_of_overwrite (hs : (h.setHash field value).2 = false) (f : Bytes) :
    ((h.setHash field value).1.getHash f).isSome = (h.getHash f).isSome := by
  rcases h with ⟨m | vec, usage⟩
  · rcases hm : m[field]? with _ | old <;> simp only [setHash, hm] at hs ⊢
    · cases hs
    simp only [getHash, entry, Option.isSome_map, Std.ExtTreeMap.getElem?_insert]
    split_ifs with hk
    · rw [← Std.LawfulEqCmp.eq_of_compare hk, hm]
      rfl
    · rfl
  · rcases hv : vec.find? (·.1.bytes = field) with _ | p <;> simp only [setHash, hv] at hs ⊢
    · cases hs
    simp only [getHash, entry, Option.isSome_map]
    exact find?_assignVec_isSome value f vec

theorem getHash_isSome_of_overwrite (hs : (h.setHash field value).2 = false) :
    (h.getHash field).isSome := by
  rcases h with ⟨m | vec, usage⟩
  · rcases hm : m[field]? with _ | old <;> simp only [setHash, hm] at hs
    · cases hs
    simp [getHash, entry, hm]
  · rcases hv : vec.find? (·.1.bytes = field) with _ | p <;> simp only [setHash, hv] at hs
    · cases hs
    simp [getHash, entry, hv]

end DrutaHash

section Loop

variable {h : DrutaHash} {n : ℕ} {b : Bool}

/-- Writing the values that are there. -/
theorem hsetLoop_self (hm : h.memoryUsage < 2 ^ 64) : ∀ {l : List Bytes} {b : Bool},
    (∀ p ∈ pairs l, h.getHash p.1 = some p.2) → (hsetLoop l h n b).1 = h
  | [], _, _ => rfl
  | [_], _, _ => rfl
  | field :: value :: l, b, hl => by
    have hself := DrutaHash.setHash_self hm (hl (field, value) List.mem_cons_self)
    simp only [hsetLoop, hself, Bool.false_eq_true, if_false]
    exact hsetLoop_self hm fun p hp => hl p (List.mem_cons_of_mem _ hp)

/-- A loop that creates no field was given only fields that are there. -/
theorem getHash_isSome_of_hsetLoop : ∀ {l : List Bytes} {h : DrutaHash} {n : ℕ} {b : Bool},
    (hsetLoop l h n b).2.1 = n → ∀ p ∈ pairs l, (h.getHash p.1).isSome
  | [], _, _, _, _, p, hp => by simp [pairs] at hp
  | [_], _, _, _, _, p, hp => by simp [pairs] at hp
  | field :: value :: l, h, n, b, hn, p, hp => by
    rcases hs : (h.setHash field value).2 with _ | _
    · simp only [hsetLoop, hs, Bool.false_eq_true, if_false] at hn
      rcases List.mem_cons.1 hp with rfl | hp
      · exact DrutaHash.getHash_isSome_of_overwrite hs
      · rw [← DrutaHash.setHash_isSome_of_overwrite hs]
        exact getHash_isSome_of_hsetLoop hn p hp
    · have hle := hsetLoop_created l (h.setHash field value).1 (n + 1) (b || h.setHashWraps field)
      simp only [hsetLoop, hs, if_true] at hn
      omega

end Loop

/-! ## Counters stay in their type -/

section Bounds

theorem setHash_memoryUsage_lt {h : DrutaHash} (hm : h.memoryUsage < 2 ^ 64) (field value : Bytes) :
    (h.setHash field value).1.memoryUsage < 2 ^ 64 := by
  rcases h with ⟨m | vec, usage⟩
  · rcases hget : m[field]? with _ | old <;> simp only [DrutaHash.setHash, hget]
    · exact addSize_lt _ _
    · exact addSize_lt _ _
  · rcases hv : vec.find? (·.1.bytes = field) with _ | p <;> simp only [DrutaHash.setHash, hv]
    · split_ifs
      · exact addSize_lt _ _
      · exact addSize_lt _ _
    · exact addSize_lt _ _

theorem delHash_memoryUsage_lt {h : DrutaHash} (hm : h.memoryUsage < 2 ^ 64) (field : Bytes) :
    (h.delHash field).1.memoryUsage < 2 ^ 64 := by
  rcases h with ⟨m | vec, usage⟩
  · rcases hget : m[field]? with _ | old <;> simp only [DrutaHash.delHash, hget]
    · exact hm
    · exact subSize_lt _ _
  · rcases hv : vec.find? (·.1.bytes = field) with _ | p <;> simp only [DrutaHash.delHash, hv]
    · exact hm
    · exact subSize_lt _ _

theorem hsetLoop_memoryUsage_lt : ∀ (l : List Bytes) {h : DrutaHash} (n : ℕ) (b : Bool),
    h.memoryUsage < 2 ^ 64 → (hsetLoop l h n b).1.memoryUsage < 2 ^ 64
  | [], _, _, _, hm => hm
  | [_], _, _, _, hm => hm
  | field :: value :: l, _, _, _, hm =>
    hsetLoop_memoryUsage_lt l _ _ (setHash_memoryUsage_lt hm field value)

theorem hdelLoop_memoryUsage_lt : ∀ (l : List Bytes) {h : DrutaHash} (n : ℕ) (b : Bool),
    h.memoryUsage < 2 ^ 64 → (hdelLoop l h n b).1.memoryUsage < 2 ^ 64
  | [], _, _, _, hm => hm
  | field :: l, _, _, _, hm => hdelLoop_memoryUsage_lt l _ _ (delHash_memoryUsage_lt hm field)

theorem saddNewLoop_usage_lt : ∀ (l : List Bytes) (s : Std.ExtTreeSet Bytes) {u : ℕ} (n : ℕ),
    u < 2 ^ 64 → (saddNewLoop l s u n).2.1 < 2 ^ 64
  | [], _, _, _, hu => hu
  | a :: l, s, u, n, hu => by
    unfold saddNewLoop
    split_ifs
    · exact saddNewLoop_usage_lt l s n hu
    · exact saddNewLoop_usage_lt l _ (n + 1) (addSize_lt _ _)

end Bounds

end DrutaDB
