import DrutaDB.Lib.Totals
import DrutaDB.Proofs.FieldMap

/-!
# The memory counter of a hash

The counter agrees with a scan of the entries as long as no call changes a capacity behind its
back (`hash_accounted`): a deletion from a vector moves the later strings into the buffers before
them, and a new value of a map is assigned to an empty string.
-/

namespace DrutaDB

open Machine Decimal Capacity Totals

/-- What the constructor of a vector hash counts for an entry. -/
def vectorEntryUsage (p : CString × CString) : ℕ :=
  p.1.capacity + p.2.capacity + hashEntryOverheadVector

/-- What the constructor of a map hash counts for an entry. -/
def mapEntryUsage (p : Bytes × CString) : ℕ :=
  copyCapacity p.1 + p.2.capacity + hashEntryOverheadMap

namespace DrutaHash

def entryUsages (h : DrutaHash) : List ℕ :=
  match h.data with
  | .vector vec => vec.map vectorEntryUsage
  | .map m => m.toList.map mapEntryUsage

/-- The counter that the constructors compute by a scan of the data. -/
def fullScan (h : DrutaHash) : ℕ := sumSize h.entryUsages

end DrutaHash

/-- Moving the strings one place down, the first into `t`, gives each the buffer it had. -/
def Slides (t : CString) (l : List CString) : Prop := t.capacity = 15 ∨ ∀ s ∈ l, 15 < s.capacity

namespace HashCall

/-- The call changes no capacity that it does not count. -/
def Accounted (h : DrutaHash) : HashCall → Prop
  | .set field value =>
    match h.data with
    | .vector _ => True
    | .map m => m[field]? = none → value.length ≤ 15 ∨ 30 ≤ value.length
  | .del field =>
    match h.data with
    | .vector vec => ∀ before p after, vec = before ++ p :: after → p.1.bytes = field →
        Slides p.1 (after.map Prod.fst) ∧ Slides p.2 (after.map Prod.snd)
    | .map _ => True
  | .get _ => True

/-- A subtraction from the counter goes below zero. -/
def wraps (h : DrutaHash) : HashCall → Bool
  | .set field _ => h.setHashWraps field
  | .del field => h.delHashWraps field
  | .get _ => false

end HashCall

/-! ## Moves -/

section Moves

variable {t s : CString} {l : List CString}

theorem Slides.head (h : Slides t (s :: l)) : (t.moveAssign s).1 = s := by
  unfold CString.moveAssign
  split_ifs with hs
  · rcases h with ht | hall
    · have hcap : t.capacity = s.capacity := by
        have hs' : 15 ≤ s.capacity := s.nil_fits
        omega
      simp only [hcap]
    · have := hall s List.mem_cons_self
      omega
  · rfl

theorem Slides.tail (h : Slides t (s :: l)) : Slides (t.moveAssign s).2 l := by
  rcases h with ht | hall
  · left
    unfold CString.moveAssign
    split_ifs with hs
    · exact le_antisymm hs s.nil_fits
    · exact ht
  · exact .inr fun c hc => hall c (List.mem_cons_of_mem s hc)

theorem shiftDown_eq : ∀ {p : CString × CString} {l : List (CString × CString)},
    Slides p.1 (l.map Prod.fst) → Slides p.2 (l.map Prod.snd) →
      shiftDown DrutaHash.movePair p l = l
  | _, [], _, _ => rfl
  | p, q :: l, h₁, h₂ => by
    rw [List.map_cons] at h₁ h₂
    have hpair : (DrutaHash.movePair p q).1 = q := Prod.ext h₁.head h₂.head
    have hrest : shiftDown DrutaHash.movePair (DrutaHash.movePair p q).2 l = l :=
      shiftDown_eq h₁.tail h₂.tail
    rw [shiftDown, hpair, hrest]

theorem eraseVec_split {field : Bytes} {p : CString × CString} {after : List (CString × CString)}
    (hp : p.1.bytes = field) : ∀ {before : List (CString × CString)},
      (∀ q ∈ before, q.1.bytes ≠ field) →
        DrutaHash.eraseVec field (before ++ p :: after) =
          before ++ shiftDown DrutaHash.movePair p after
  | [], _ => by rw [List.nil_append, DrutaHash.eraseVec, if_pos hp, List.nil_append]
  | q :: before, hb => by
    rw [List.cons_append, DrutaHash.eraseVec, if_neg (hb q List.mem_cons_self),
      eraseVec_split hp fun r hr => hb r (List.mem_cons_of_mem q hr), List.cons_append]

theorem assignVec_split {field : Bytes} (value : Bytes) {p : CString × CString}
    {after : List (CString × CString)} (hp : p.1.bytes = field) :
    ∀ {before : List (CString × CString)}, (∀ q ∈ before, q.1.bytes ≠ field) →
      DrutaHash.assignVec field value (before ++ p :: after) =
        before ++ (p.1, p.2.assign value) :: after
  | [], _ => by rw [List.nil_append, DrutaHash.assignVec, if_pos hp, List.nil_append]
  | q :: before, hb => by
    rw [List.cons_append, DrutaHash.assignVec, if_neg (hb q List.mem_cons_self),
      assignVec_split value hp fun r hr => hb r (List.mem_cons_of_mem q hr), List.cons_append]

/-- The entry of a field, and those before and behind it. -/
theorem find_split {field : Bytes} {vec : List (CString × CString)} {p : CString × CString}
    (h : vec.find? (·.1.bytes = field) = some p) : p.1.bytes = field ∧
      ∃ before after, vec = before ++ p :: after ∧ ∀ q ∈ before, q.1.bytes ≠ field := by
  obtain ⟨hp, before, after, heq, hb⟩ := List.find?_eq_some_iff_append.1 h
  exact ⟨by simpa using hp, before, after, heq, fun q hq => by simpa using hb q hq⟩

/-- The entries of a vector become those of the map. -/
theorem mapTotal_moveInto (f : Bytes × CString → ℕ) : ∀ {vec : List (CString × CString)}
    {m : Std.ExtTreeMap Bytes CString}, (vec.map (·.1.bytes)).Nodup →
      (∀ p ∈ vec, m[p.1.bytes]? = none) → mapTotal f (vec.foldl DrutaHash.moveInto m) =
        mapTotal f m + (vec.map fun p => f (p.1.bytes, p.2)).sum
  | [], m, _, _ => by simp
  | p :: vec, m, hd, hm => by
    rw [List.map_cons, List.nodup_cons] at hd
    have hnone := hm p List.mem_cons_self
    have hmove : (CString.empty.moveAssign p.2).1 = p.2 := Slides.head (l := []) (.inl rfl)
    have hinto : DrutaHash.moveInto m p = m.insert p.1.bytes p.2 := by
      rw [DrutaHash.moveInto, hnone, Option.getD_none, hmove]
    rw [List.foldl_cons, hinto, mapTotal_moveInto f hd.2, mapTotal_insert f hnone, List.map_cons,
      List.sum_cons]
    · omega
    · intro q hq
      rw [Std.ExtTreeMap.getElem?_insert, if_neg, hm q (List.mem_cons_of_mem p hq)]
      rw [Std.LawfulEqCmp.compare_eq_iff_eq]
      exact fun hc => hd.1 (hc ▸ List.mem_map_of_mem hq)

end Moves

/-! ## The counter -/

namespace DrutaHash

variable {h : DrutaHash} {field value : Bytes}

/-- The fields of a vector have the capacities of fresh copies. -/
def KeysCopied (h : DrutaHash) : Prop :=
  match h.data with
  | .vector vec => ∀ p ∈ vec, p.1.capacity = copyCapacity p.1.bytes
  | .map _ => True

/-- What calls keep that are accounted for. -/
structure Tidy (h : DrutaHash) : Prop where
  distinct : h.Distinct
  keys : h.KeysCopied
  usage : h.memoryUsage = toSize h.entryUsages.sum

theorem tidy_empty : empty.Tidy where
  distinct := List.nodup_nil
  keys p hp := by simp at hp
  usage := rfl

theorem fullScan_eq (h : DrutaHash) : h.fullScan = toSize h.entryUsages.sum := sumSize_eq _

theorem length_entryUsages (h : DrutaHash) : h.entryUsages.length = h.size := by
  rcases h with ⟨m | vec, n⟩ <;> simp [entryUsages, size]

/-- In a map each entry counts for a node more. -/
theorem sum_convertToMap {vec : List (CString × CString)} {n : ℕ}
    (hd : Distinct ⟨.vector vec, n⟩) (hk : KeysCopied ⟨.vector vec, n⟩) :
    (vec.foldl moveInto ∅).size = vec.length ∧ mapTotal mapEntryUsage (vec.foldl moveInto ∅) =
      (vec.map vectorEntryUsage).sum + vec.length * mapNodeOverhead := by
  have hkeys : ∀ p ∈ vec, p.1.capacity = copyCapacity p.1.bytes := hk
  have htotal : ∀ f : Bytes × CString → ℕ, mapTotal f (vec.foldl moveInto ∅) =
      (vec.map fun p => f (p.1.bytes, p.2)).sum := by
    intro f
    rw [mapTotal_moveInto f hd fun p _ => by simp, mapTotal_empty, Nat.zero_add]
  have hentry : (vec.map fun p => mapEntryUsage (p.1.bytes, p.2)) =
      vec.map fun p => vectorEntryUsage p + mapNodeOverhead := by
    refine List.map_congr_left fun p hp => ?_
    change copyCapacity p.1.bytes + p.2.capacity + hashEntryOverheadMap = _
    rw [vectorEntryUsage, hkeys p hp, hashEntryOverheadMap, hashEntryOverheadVector]
    omega
  constructor
  · have hone := htotal fun _ => 1
    simpa [mapTotal] using hone
  · rw [htotal, hentry, List.sum_map_add, List.map_const', List.sum_replicate, smul_eq_mul]

theorem tidy_convertToMap (ht : h.Tidy) : h.convertToMap.Tidy := by
  refine ⟨distinct_convertToMap ht.distinct, ?_, ?_⟩
  · rcases h with ⟨m | vec, n⟩ <;> trivial
  · rcases h with ⟨m | vec, n⟩
    · exact ht.usage
    · have hn : n = toSize (vec.map vectorEntryUsage).sum := ht.usage
      obtain ⟨hsize, hsum⟩ := sum_convertToMap ht.distinct ht.keys
      change addSize n ((vec.foldl moveInto ∅).size * mapNodeOverhead) =
        toSize (mapTotal mapEntryUsage (vec.foldl moveInto ∅) : ℕ)
      rw [hn, hsize, hsum, addSize_toSize]

/-- A field more in a vector. -/
theorem tidy_append {vec : List (CString × CString)} {n : ℕ} (ht : Tidy ⟨.vector vec, n⟩)
    (hv : vec.find? (·.1.bytes = field) = none) (value : Bytes) :
    Tidy ⟨.vector (vec ++ [(.copy field, .copy value)]),
      addSize n (copyCapacity field + copyCapacity value + hashEntryOverheadVector)⟩ where
  distinct := distinct_append ht.distinct hv
  keys p hp := by
    rcases List.mem_append.1 hp with hp | hp
    · exact ht.keys p hp
    · rw [List.mem_singleton.1 hp]
      rfl
  usage := by
    have hn : n = toSize (vec.map vectorEntryUsage).sum := ht.usage
    change addSize n _ =
      toSize ((vec ++ [(CString.copy field, CString.copy value)]).map vectorEntryUsage).sum
    rw [hn, addSize_toSize, List.map_append, List.sum_append]
    simp [vectorEntryUsage]

/-- A value of a vector is overwritten. -/
theorem tidy_assignVec {vec : List (CString × CString)} {n : ℕ} {p : CString × CString}
    (ht : Tidy ⟨.vector vec, n⟩) (hv : vec.find? (·.1.bytes = field) = some p) (value : Bytes) :
    Tidy ⟨.vector (assignVec field value vec),
      addSize (subSize n p.2.capacity) (p.2.assign value).capacity⟩ := by
  obtain ⟨hp, before, after, rfl, hb⟩ := find_split hv
  have hassign : assignVec field value (before ++ p :: after) =
      before ++ (p.1, p.2.assign value) :: after := assignVec_split value hp hb
  have hn : n = toSize ((before ++ p :: after).map vectorEntryUsage).sum := ht.usage
  constructor
  · have hd : ((before ++ p :: after).map (·.1.bytes)).Nodup := ht.distinct
    rw [← fields_assignVec field value] at hd
    exact hd
  · have hkeys : ∀ q ∈ before ++ p :: after, q.1.capacity = copyCapacity q.1.bytes := ht.keys
    rw [hassign]
    intro q hq
    rcases List.mem_append.1 hq with hq | hq
    · exact hkeys q (List.mem_append_left _ hq)
    · rcases List.mem_cons.1 hq with rfl | hq
      · exact hkeys p (by simp)
      · exact hkeys q (by simp [hq])
  · rw [hassign]
    change addSize (subSize n _) _ =
      toSize ((before ++ (p.1, p.2.assign value) :: after).map vectorEntryUsage).sum
    rw [hn]
    refine addSize_subSize_toSize ?_
    simp only [List.map_append, List.map_cons, List.sum_append, List.sum_cons, vectorEntryUsage]
    omega

theorem tidy_setHash (ht : h.Tidy) (hc : (HashCall.set field value).Accounted h) :
    (h.setHash field value).1.Tidy := by
  rcases h with ⟨m | vec, n⟩
  · have hn : n = toSize (mapTotal mapEntryUsage m : ℕ) := ht.usage
    rcases hm : m[field]? with _ | old <;> simp only [setHash, hm]
    · refine ⟨trivial, trivial, ?_⟩
      have hlen : value.length ≤ 15 ∨ 30 ≤ value.length := hc hm
      have hcap : (CString.empty.assign value).capacity = copyCapacity value := by
        change CString.assignCapacity 15 value = _
        unfold CString.assignCapacity copyCapacity
        split_ifs <;> omega
      change addSize n _ = toSize (mapTotal mapEntryUsage (m.insert field _) : ℕ)
      rw [mapTotal_insert mapEntryUsage hm, mapEntryUsage, hcap, hn, addSize_toSize, Nat.add_comm]
    · refine ⟨trivial, trivial, ?_⟩
      have htotal := mapTotal_overwrite mapEntryUsage hm (old.assign value)
      change addSize (subSize n _) _ = toSize (mapTotal mapEntryUsage (m.insert field _) : ℕ)
      rw [hn]
      refine addSize_subSize_toSize ?_
      simp only [mapEntryUsage] at htotal ⊢
      omega
  · rcases hv : vec.find? (·.1.bytes = field) with _ | p <;> simp only [setHash, hv]
    · split_ifs
      · exact tidy_convertToMap (tidy_append ht hv value)
      · exact tidy_append ht hv value
    · exact tidy_assignVec ht hv value

/-- A deletion that is accounted for takes one entry out. -/
theorem eraseVec_accounted {vec : List (CString × CString)} {n : ℕ} {p : CString × CString}
    (hc : (HashCall.del field).Accounted ⟨.vector vec, n⟩)
    (hv : vec.find? (·.1.bytes = field) = some p) :
    ∃ before after, vec = before ++ p :: after ∧ eraseVec field vec = before ++ after := by
  obtain ⟨hp, before, after, rfl, hb⟩ := find_split hv
  obtain ⟨hfst, hsnd⟩ := hc before p after rfl hp
  exact ⟨before, after, rfl, by rw [eraseVec_split hp hb, shiftDown_eq hfst hsnd]⟩

theorem tidy_delHash (ht : h.Tidy) (hc : (HashCall.del field).Accounted h) :
    (h.delHash field).1.Tidy := by
  rcases h with ⟨m | vec, n⟩
  · rcases hm : m[field]? with _ | v <;> simp only [delHash, hm]
    · exact ht
    · have hn : n = toSize (mapTotal mapEntryUsage m : ℕ) := ht.usage
      refine ⟨trivial, trivial, ?_⟩
      change subSize n _ = toSize (mapTotal mapEntryUsage (m.erase field) : ℕ)
      rw [hn, mapTotal_erase mapEntryUsage hm, mapEntryUsage, Nat.add_comm, subSize_toSize]
  · rcases hv : vec.find? (·.1.bytes = field) with _ | p <;> simp only [delHash, hv]
    · exact ht
    · obtain ⟨before, after, rfl, herase⟩ := eraseVec_accounted hc hv
      have hn : n = toSize ((before ++ p :: after).map vectorEntryUsage).sum := ht.usage
      have hkeys : ∀ q ∈ before ++ p :: after, q.1.capacity = copyCapacity q.1.bytes := ht.keys
      rw [herase]
      constructor
      · have hd := @distinct_delHash _ field ht.distinct
        simp only [delHash, hv, herase] at hd
        exact hd
      · intro q hq
        exact hkeys q (by
          rcases List.mem_append.1 hq with hq | hq <;> simp [hq])
      · change subSize n _ = toSize ((before ++ after).map vectorEntryUsage).sum
        have hsum : ((before ++ p :: after).map vectorEntryUsage).sum =
            ((before ++ after).map vectorEntryUsage).sum + vectorEntryUsage p := by
          simp only [List.map_append, List.map_cons, List.sum_append, List.sum_cons]
          omega
        rw [hn, hsum, ← vectorEntryUsage, subSize_toSize]

/-- A call adds no more than its words and a conversion do. -/
theorem sum_setHash_le (ht : h.Tidy) (hs : h.Small) (field value : Bytes) :
    (h.setHash field value).1.entryUsages.sum ≤
      h.entryUsages.sum + field.length + 2 * value.length + 2 ^ 13 := by
  have hcopy : ∀ b : Bytes, copyCapacity b ≤ b.length + 15 := by
    intro b
    unfold copyCapacity
    omega
  have hassign : ∀ c : CString, (c.assign value).capacity ≤ c.capacity + 2 * value.length := by
    intro c
    change CString.assignCapacity c.capacity value ≤ _
    unfold CString.assignCapacity
    split_ifs <;> omega
  have hfield := hcopy field
  have hvalue := hcopy value
  have hmap : hashEntryOverheadMap = 128 := rfl
  have hvector : hashEntryOverheadVector = 64 := rfl
  rcases h with ⟨m | vec, n⟩
  · rcases hm : m[field]? with _ | old <;> simp only [setHash, hm]
    · have hnew := hassign .empty
      have hempty : CString.empty.capacity = 15 := rfl
      change mapTotal mapEntryUsage (m.insert field _) ≤ mapTotal mapEntryUsage m + _ + _ + _
      rw [mapTotal_insert mapEntryUsage hm, mapEntryUsage]
      dsimp only
      omega
    · have htotal := mapTotal_overwrite mapEntryUsage hm (old.assign value)
      have hold := hassign old
      change mapTotal mapEntryUsage (m.insert field _) ≤ mapTotal mapEntryUsage m + _ + _ + _
      simp only [mapEntryUsage] at htotal ⊢
      omega
  · rcases hv : vec.find? (·.1.bytes = field) with _ | p <;> simp only [setHash, hv]
    · have hsum : ((vec ++ [(CString.copy field, CString.copy value)]).map vectorEntryUsage).sum =
          (vec.map vectorEntryUsage).sum +
            (copyCapacity field + copyCapacity value + hashEntryOverheadVector) := by
        rw [List.map_append, List.sum_append]
        simp [vectorEntryUsage]
      split_ifs
      · have happ := tidy_append ht hv value
        have hlen : vec.length ≤ 64 := hs
        have hnode : mapNodeOverhead = 64 := rfl
        change mapTotal mapEntryUsage (List.foldl moveInto ∅ _) ≤
          (vec.map vectorEntryUsage).sum + _ + _ + _
        rw [(sum_convertToMap happ.distinct happ.keys).2, hsum, List.length_append,
          List.length_singleton, hnode]
        omega
      · change ((vec ++ [_]).map vectorEntryUsage).sum ≤ (vec.map vectorEntryUsage).sum + _ + _ + _
        rw [hsum]
        omega
    · obtain ⟨hp, before, after, rfl, hb⟩ := find_split hv
      have hold := hassign p.2
      change ((assignVec field value (before ++ p :: after)).map vectorEntryUsage).sum ≤
        ((before ++ p :: after).map vectorEntryUsage).sum + _ + _ + _
      rw [assignVec_split value hp hb]
      simp only [List.map_append, List.map_cons, List.sum_append, List.sum_cons, vectorEntryUsage]
      omega

theorem sum_delHash_le (hc : (HashCall.del field).Accounted h) :
    (h.delHash field).1.entryUsages.sum ≤ h.entryUsages.sum := by
  rcases h with ⟨m | vec, n⟩
  · rcases hm : m[field]? with _ | v <;> simp only [delHash, hm]
    · exact le_rfl
    · have htotal := mapTotal_erase mapEntryUsage hm
      change mapTotal mapEntryUsage (m.erase field) ≤ mapTotal mapEntryUsage m
      omega
  · rcases hv : vec.find? (·.1.bytes = field) with _ | p <;> simp only [delHash, hv]
    · exact le_rfl
    · obtain ⟨before, after, rfl, herase⟩ := eraseVec_accounted hc hv
      change ((eraseVec field _).map vectorEntryUsage).sum ≤
        ((before ++ p :: after).map vectorEntryUsage).sum
      rw [herase]
      simp only [List.map_append, List.map_cons, List.sum_append, List.sum_cons]
      omega

/-- An entry counts for no more than all. -/
theorem entry_le {p : CString × CString} (he : h.entry field = some p) :
    p.1.capacity + p.2.capacity + (match h.data with
      | .vector _ => hashEntryOverheadVector
      | .map _ => hashEntryOverheadMap) ≤ h.entryUsages.sum := by
  rcases h with ⟨m | vec, n⟩
  · obtain ⟨v, hm, rfl⟩ := Option.map_eq_some_iff.1 he
    have htotal := mapTotal_erase mapEntryUsage hm
    change mapEntryUsage (field, v) ≤ mapTotal mapEntryUsage m
    omega
  · exact List.single_le_sum (by simp) _ (List.mem_map_of_mem (List.mem_of_find?_eq_some he))

/-- No subtraction of a call goes below zero where the counter is the total. -/
theorem wraps_eq_false (ht : h.Tidy) (hlt : h.entryUsages.sum < 2 ^ 64) (c : HashCall) :
    c.wraps h = false := by
  have husage : h.memoryUsage = h.entryUsages.sum := ht.usage.trans (toSize_natCast hlt)
  cases c with
  | set field value =>
    rcases he : h.entry field with _ | p
    · simp [HashCall.wraps, setHashWraps, he]
    · have hle := entry_le he
      simp only [HashCall.wraps, setHashWraps, he, Option.any_some, decide_eq_false_iff_not]
      omega
  | del field =>
    rcases he : h.entry field with _ | p
    · simp [HashCall.wraps, delHashWraps, he]
    · simp only [HashCall.wraps, delHashWraps, he, Option.any_some, decide_eq_false_iff_not]
      exact not_lt.2 ((entry_le he).trans_eq husage.symm)
  | get field => rfl

theorem tidy_run {c : HashCall} (ht : h.Tidy) (hc : c.Accounted h) : (c.run h).Tidy := by
  cases c with
  | set field value => exact tidy_setHash ht hc
  | del field => exact tidy_delHash ht hc
  | get field => exact ht

end DrutaHash

theorem tidy_hashAfter {calls : List HashCall}
    (h : ∀ pre c, pre ++ [c] <+: calls → c.Accounted (hashAfter pre)) : (hashAfter calls).Tidy := by
  induction calls using List.reverseRecOn with
  | nil => exact DrutaHash.tidy_empty
  | append_singleton calls c ih =>
    have hrun : hashAfter (calls ++ [c]) = c.run (hashAfter calls) := by
      simp [hashAfter]
    rw [hrun]
    refine DrutaHash.tidy_run (ih fun pre d hpre => ?_) (h calls c List.prefix_rfl)
    exact h pre d (hpre.trans (List.prefix_append calls [c]))

/-- After calls that are accounted for, the counter is what a scan of the entries gives. -/
theorem hash_accounted {calls : List HashCall}
    (h : ∀ pre c, pre ++ [c] <+: calls → c.Accounted (hashAfter pre)) :
    (hashAfter calls).memoryUsage = (hashAfter calls).fullScan ∧
    ((hashAfter calls).size = 0 → (hashAfter calls).memoryUsage = 0) ∧
    ∀ pre c, pre ++ [c] <+: calls → (hashAfter pre).entryUsages.sum < 2 ^ 64 →
      c.wraps (hashAfter pre) = false := by
  have ht := tidy_hashAfter h
  refine ⟨ht.usage.trans (DrutaHash.fullScan_eq _).symm, fun hsize => ?_, ?_⟩
  · have hnil : (hashAfter calls).entryUsages = [] :=
      List.length_eq_zero_iff.1 ((DrutaHash.length_entryUsages _).trans hsize)
    rw [ht.usage, hnil]
    rfl
  · intro pre c hpre hlt
    have hrest : ∀ p d, p ++ [d] <+: pre → d.Accounted (hashAfter p) := fun p d hp =>
      h p d (hp.trans ((List.prefix_append pre [c]).trans hpre))
    exact DrutaHash.wraps_eq_false (tidy_hashAfter hrest) hlt c

/-- The first of two fields is deleted, its value short. -/
theorem hash_accounted_del :
    (hashAfter [.set [97] [49], .set [98] [50], .del [97]]).memoryUsage =
      (hashAfter [.set [97] [49], .set [98] [50], .del [97]]).fullScan := by
  refine (hash_accounted fun pre c hpre => ?_).1
  rw [← List.mem_inits] at hpre
  have hcases : (pre = [] ∧ c = .set [97] [49]) ∨ (pre = [.set [97] [49]] ∧ c = .set [98] [50]) ∨
      (pre = [.set [97] [49], .set [98] [50]] ∧ c = .del [97]) := by
    rcases pre with _ | ⟨a, _ | ⟨b, _ | ⟨d, pre⟩⟩⟩ <;> simp_all [List.inits]
  rcases hcases with ⟨rfl, rfl⟩ | ⟨rfl, rfl⟩ | ⟨rfl, rfl⟩
  · trivial
  · trivial
  · intro before p after heq _
    have hmem : p ∈ before ++ p :: after := List.mem_append_right _ List.mem_cons_self
    rw [← heq] at hmem
    rcases List.mem_cons.1 hmem with rfl | hmem
    · exact ⟨.inl rfl, .inl rfl⟩
    · rw [List.mem_singleton.1 hmem]
      exact ⟨.inl rfl, .inl rfl⟩

/-- The counter of an empty hash, after the value of a deleted field left its buffer to the next. -/
theorem hash_drifts :
    let long : Bytes := List.replicate 40 49
    let calls : List HashCall := [.set [97] long, .set [98] [50], .del [97], .del [98]]
    (hashAfter calls).size = 0 ∧ (hashAfter calls).fullScan = 0 ∧
      (hashAfter calls).memoryUsage = 2 ^ 64 - 25 ∧
      (HashCall.del [98]).wraps (hashAfter (calls.take 3)) = true := by
  decide

end DrutaDB
