import DrutaDB.Proofs.Hashes

/-!
# What a hash contains

The finite map a hash stands for, whichever form it is in: `set_hash` adds or replaces one field
(`getHash_setHash`), `del_hash` takes one away (`getHash_delHash`), and the conversion to a map
keeps it (`getHash_convertToMap`), provided that a vector has every field once.
-/

namespace DrutaDB

open Machine Decimal Capacity

namespace DrutaHash

/-- A vector has every field once. -/
def Distinct (h : DrutaHash) : Prop :=
  match h.data with
  | .vector vec => (vec.map (·.1.bytes)).Nodup
  | .map _ => True

/-- The value the vector has for a field. -/
def lookup (vec : List (CString × CString)) (field : Bytes) : Option Bytes :=
  (vec.find? (·.1.bytes = field)).map (·.2.bytes)

theorem getHash_vector (vec : List (CString × CString)) (n : ℕ) (field : Bytes) :
    (⟨.vector vec, n⟩ : DrutaHash).getHash field = lookup vec field := rfl

theorem getHash_map (m : Std.ExtTreeMap Bytes CString) (n : ℕ) (field : Bytes) :
    (⟨.map m, n⟩ : DrutaHash).getHash field = m[field]?.map CString.bytes := by
  simp [getHash, entry, Function.comp_def]

theorem lookup_cons (p : CString × CString) (vec : List (CString × CString)) (field : Bytes) :
    lookup (p :: vec) field = if p.1.bytes = field then some p.2.bytes else lookup vec field := by
  unfold lookup
  rw [List.find?_cons]
  by_cases h : p.1.bytes = field <;> simp [h]

theorem lookup_eq_none_iff {vec : List (CString × CString)} {field : Bytes} :
    lookup vec field = none ↔ field ∉ vec.map (·.1.bytes) := by
  unfold lookup
  rw [Option.map_eq_none_iff, List.find?_eq_none]
  simp [eq_comm]

theorem lookup_append_singleton (p : CString × CString) : ∀ (vec : List (CString × CString))
    (field : Bytes), lookup (vec ++ [p]) field =
      (lookup vec field).or (if p.1.bytes = field then some p.2.bytes else none)
  | [], field => lookup_cons p [] field
  | q :: vec, field => by
    rw [List.cons_append, lookup_cons, lookup_append_singleton p vec, lookup_cons]
    split_ifs <;> rfl

theorem lookup_assignVec {field value : Bytes} : ∀ {vec : List (CString × CString)} (g : Bytes),
    field ∈ vec.map (·.1.bytes) →
      lookup (assignVec field value vec) g = if g = field then some value else lookup vec g
  | [], g, h => by simp at h
  | p :: vec, g, h => by
    unfold assignVec
    split_ifs with hp hg hg
    · rw [lookup_cons, if_pos (hp.trans hg.symm), CString.assign_bytes]
    · rw [lookup_cons, lookup_cons, if_neg (hp.trans_ne (Ne.symm hg)),
        if_neg (hp.trans_ne (Ne.symm hg))]
    · have hmem : field ∈ vec.map (·.1.bytes) := by simpa [Ne.symm hp] using h
      rw [lookup_cons, lookup_assignVec g hmem, if_pos hg, if_neg (hg ▸ hp)]
    · have hmem : field ∈ vec.map (·.1.bytes) := by simpa [Ne.symm hp] using h
      rw [lookup_cons, lookup_assignVec g hmem, if_neg hg, lookup_cons]

theorem fields_assignVec (field value : Bytes) : ∀ vec : List (CString × CString),
    (assignVec field value vec).map (·.1.bytes) = vec.map (·.1.bytes)
  | [] => rfl
  | p :: vec => by
    unfold assignVec
    split_ifs
    · rfl
    · rw [List.map_cons, fields_assignVec field value vec, List.map_cons]

/-- The map a vector is converted to has the vector's entries over those it had. -/
theorem getElem?_foldl_moveInto : ∀ {vec : List (CString × CString)}
    (m : Std.ExtTreeMap Bytes CString) (g : Bytes), (vec.map (·.1.bytes)).Nodup →
      ((vec.foldl moveInto m)[g]?).map CString.bytes = (lookup vec g).or (m[g]?.map CString.bytes)
  | [], m, g, _ => rfl
  | p :: vec, m, g, h => by
    rw [List.map_cons, List.nodup_cons] at h
    rw [List.foldl_cons, getElem?_foldl_moveInto _ g h.2, lookup_cons, moveInto,
      Std.ExtTreeMap.getElem?_insert]
    by_cases hg : p.1.bytes = g
    · have hnone : lookup vec g = none := lookup_eq_none_iff.2 (hg ▸ h.1)
      have hcmp : compare p.1.bytes g = .eq := Std.LawfulEqCmp.compare_eq_iff_eq.2 hg
      rw [if_pos hg, if_pos hcmp, hnone]
      simp
    · have hcmp : compare p.1.bytes g ≠ .eq := fun hc => hg (Std.LawfulEqCmp.eq_of_compare hc)
      rw [if_neg hg, if_neg hcmp]

theorem getHash_convertToMap {h : DrutaHash} (hd : h.Distinct) (g : Bytes) :
    h.convertToMap.getHash g = h.getHash g := by
  rcases h with ⟨m | vec, n⟩
  · rfl
  · unfold convertToMap
    rw [getHash_map, getElem?_foldl_moveInto _ g hd, getHash_vector]
    simp

theorem distinct_convertToMap {h : DrutaHash} (hd : h.Distinct) : h.convertToMap.Distinct := by
  rcases h with ⟨m | vec, n⟩
  · exact hd
  · trivial

section Set

variable {h : DrutaHash} {field value : Bytes}

theorem mem_fields_of_find? {vec : List (CString × CString)} {p : CString × CString}
    (hp : vec.find? (·.1.bytes = field) = some p) : field ∈ vec.map (·.1.bytes) := by
  have hf : p.1.bytes = field := by simpa using List.find?_some hp
  exact List.mem_map.2 ⟨p, List.mem_of_find?_eq_some hp, hf⟩

theorem distinct_append {vec : List (CString × CString)} (hd : (vec.map (·.1.bytes)).Nodup)
    (hnone : vec.find? (·.1.bytes = field) = none) :
    ((vec ++ [(CString.copy field, CString.copy value)]).map (·.1.bytes)).Nodup := by
  have hmem : field ∉ vec.map (·.1.bytes) :=
    lookup_eq_none_iff.1 (Option.map_eq_none_iff.2 hnone)
  rw [List.map_append, List.nodup_append]
  refine ⟨hd, by simp, ?_⟩
  rintro a ha b hb rfl
  simp only [List.map_cons, List.map_nil, CString.copy_bytes, List.mem_singleton] at hb
  exact hmem (hb ▸ ha)

theorem distinct_setHash (hd : h.Distinct) : (h.setHash field value).1.Distinct := by
  rcases h with ⟨m | vec, n⟩
  · rcases hm : m[field]? with _ | old <;> simp only [setHash, hm] <;> trivial
  · rcases hv : vec.find? (·.1.bytes = field) with _ | p <;> simp only [setHash, hv]
    · split_ifs
      · exact distinct_convertToMap (distinct_append hd hv)
      · exact distinct_append hd hv
    · unfold Distinct
      dsimp only
      rw [fields_assignVec]
      exact hd

/-- `set_hash` gives the field its value and leaves the others. -/
theorem getHash_setHash (hd : h.Distinct) (g : Bytes) :
    (h.setHash field value).1.getHash g = if g = field then some value else h.getHash g := by
  rcases h with ⟨m | vec, n⟩
  · have hcmp : compare field g = .eq ↔ g = field :=
      Std.LawfulEqCmp.compare_eq_iff_eq.trans eq_comm
    rcases hm : m[field]? with _ | old <;> simp only [setHash, hm] <;>
      rw [getHash_map, getHash_map, Std.ExtTreeMap.getElem?_insert] <;> simp only [hcmp] <;>
      split_ifs <;> rfl
  · rcases hv : vec.find? (·.1.bytes = field) with _ | p <;> simp only [setHash, hv]
    · have happ : lookup (vec ++ [(CString.copy field, CString.copy value)]) g =
          if g = field then some value else lookup vec g := by
        rw [lookup_append_singleton]
        by_cases hg : g = field
        · have hnone : lookup vec field = none := Option.map_eq_none_iff.2 hv
          rw [hg, hnone]
          simp
        · simp [hg, Ne.symm hg]
      have hdist : ∀ k, Distinct ⟨.vector (vec ++ [(CString.copy field, CString.copy value)]), k⟩ :=
        fun _ => distinct_append hd hv
      split_ifs with hlen hg hg
      · rw [getHash_convertToMap (hdist _), getHash_vector, happ, if_pos hg]
      · rw [getHash_convertToMap (hdist _), getHash_vector, happ, if_neg hg]
        rfl
      · rw [getHash_vector, happ, if_pos hg]
      · rw [getHash_vector, happ, if_neg hg]
        rfl
    · exact lookup_assignVec g (mem_fields_of_find? hv)

/-- Whether a field is new. -/
theorem setHash_snd : (h.setHash field value).2 = (h.getHash field).isNone := by
  rcases h with ⟨m | vec, n⟩
  · rcases hm : m[field]? with _ | old <;> simp [setHash, getHash, entry, hm]
  · rcases hv : vec.find? (·.1.bytes = field) with _ | p <;> simp [setHash, getHash, entry, hv]

end Set

section Delete

variable {h : DrutaHash} {field : Bytes}

/-- The fields and values of a vector. -/
def texts (vec : List (CString × CString)) : List (Bytes × Bytes) :=
  vec.map fun p => (p.1.bytes, p.2.bytes)

theorem texts_shiftDown (p : CString × CString) (vec : List (CString × CString)) :
    texts (shiftDown movePair p vec) = texts vec :=
  shiftDown_map movePair (fun t s => by simp [movePair]) p vec

theorem lookup_texts {vec vec' : List (CString × CString)} (h : texts vec = texts vec')
    (g : Bytes) : lookup vec g = lookup vec' g := by
  have hlook : ∀ vec : List (CString × CString),
      lookup vec g = ((texts vec).find? (·.1 = g)).map Prod.snd := by
    intro vec
    induction vec with
    | nil => rfl
    | cons p vec ih =>
      rw [lookup_cons, ih]
      by_cases hp : p.1.bytes = g <;> simp [texts, hp]
  rw [hlook, hlook, h]

theorem fields_eq (vec : List (CString × CString)) :
    vec.map (·.1.bytes) = (texts vec).map Prod.fst := by
  simp [texts, Function.comp_def]

theorem texts_eraseVec : ∀ vec : List (CString × CString),
    texts (eraseVec field vec) = (texts vec).eraseP (·.1 = field)
  | [] => rfl
  | p :: vec => by
    unfold eraseVec
    split_ifs with hp
    · rw [texts_shiftDown]
      simp [texts, hp]
    · have hcons : texts (p :: vec) = (p.1.bytes, p.2.bytes) :: texts vec := rfl
      rw [hcons, List.eraseP_cons_of_neg (by simpa using hp), ← texts_eraseVec vec]
      rfl

theorem fields_eraseVec (vec : List (CString × CString)) :
    (eraseVec field vec).map (·.1.bytes) = (vec.map (·.1.bytes)).erase field := by
  rw [fields_eq, texts_eraseVec, fields_eq]
  generalize texts vec = l
  induction l with
  | nil => rfl
  | cons p l ih =>
    by_cases hp : p.1 = field
    · simp [hp]
    · rw [List.eraseP_cons_of_neg (by simpa using hp), List.map_cons, ih, List.map_cons,
        List.erase_cons_tail (by simpa using hp)]

theorem lookup_eraseVec {vec : List (CString × CString)} (hd : (vec.map (·.1.bytes)).Nodup)
    (g : Bytes) : lookup (eraseVec field vec) g = if g = field then none else lookup vec g := by
  induction vec with
  | nil =>
    split_ifs <;> rfl
  | cons p vec ih =>
    rw [List.map_cons, List.nodup_cons] at hd
    unfold eraseVec
    split_ifs with hp hg hg
    · rw [lookup_texts (texts_shiftDown p vec), hg, lookup_eq_none_iff, ← hp]
      exact hd.1
    · rw [lookup_texts (texts_shiftDown p vec), lookup_cons, if_neg (hp.trans_ne (Ne.symm hg))]
    · rw [lookup_cons, ih hd.2, if_pos hg, if_neg (hg ▸ hp)]
    · rw [lookup_cons, ih hd.2, if_neg hg, lookup_cons]

theorem distinct_delHash (hd : h.Distinct) : (h.delHash field).1.Distinct := by
  rcases h with ⟨m | vec, n⟩
  · rcases hm : m[field]? with _ | old <;> simp only [delHash, hm] <;> trivial
  · rcases hv : vec.find? (·.1.bytes = field) with _ | p <;> simp only [delHash, hv]
    · exact hd
    · unfold Distinct
      dsimp only
      rw [fields_eraseVec]
      exact hd.erase field

/-- `del_hash` takes the field away and leaves the others. -/
theorem getHash_delHash (hd : h.Distinct) (g : Bytes) :
    (h.delHash field).1.getHash g = if g = field then none else h.getHash g := by
  rcases h with ⟨m | vec, n⟩
  · have hcmp : compare field g = .eq ↔ g = field :=
      Std.LawfulEqCmp.compare_eq_iff_eq.trans eq_comm
    rcases hm : m[field]? with _ | old <;> simp only [delHash, hm]
    · split_ifs with hg
      · rw [hg, getHash_map, hm]
        rfl
      · rfl
    · rw [getHash_map, getHash_map, Std.ExtTreeMap.getElem?_erase]
      simp only [hcmp]
      split_ifs <;> rfl
  · rcases hv : vec.find? (·.1.bytes = field) with _ | p <;> simp only [delHash, hv]
    · split_ifs with hg
      · rw [hg]
        exact Option.map_eq_none_iff.2 hv
      · rfl
    · exact lookup_eraseVec hd g

theorem delHash_snd : (h.delHash field).2 = (h.getHash field).isSome := by
  rcases h with ⟨m | vec, n⟩
  · rcases hm : m[field]? with _ | old <;> simp [delHash, getHash, entry, hm]
  · rcases hv : vec.find? (·.1.bytes = field) with _ | p <;> simp [delHash, getHash, entry, hv]

end Delete

/-! ## Fields and values in order -/

section Order

variable {h : DrutaHash}

theorem size_eq (h : DrutaHash) : h.size = h.toList.length := by
  rcases h with ⟨m | vec, n⟩
  · simp [size, toList]
  · simp [size, toList]

theorem find?_toList (hd : h.Distinct) (g : Bytes) :
    (h.toList.find? (·.1 = g)).map Prod.snd = h.getHash g := by
  rcases h with ⟨m | vec, n⟩
  · have hmem : ∀ p ∈ m.toList, m[p.1]? = some p.2 := fun p hp =>
      Std.ExtTreeMap.mem_toList_iff_getElem?_eq_some.1 hp
    rw [getHash_map]
    rcases hf : m.toList.find? (·.1 = g) with _ | p
    · have hnone : m[g]? = none := by
        by_contra hc
        obtain ⟨v, hv⟩ := Option.ne_none_iff_exists'.1 hc
        have hp := Std.ExtTreeMap.mem_toList_iff_getElem?_eq_some.2 hv
        simpa using List.find?_eq_none.1 hf (g, v) hp
      rw [hnone]
      simp [toList, List.find?_map, hf]
    · have hg : p.1 = g := by simpa using List.find?_some hf
      have hv := hmem p (List.mem_of_find?_eq_some hf)
      rw [hg] at hv
      rw [hv]
      simp [toList, List.find?_map, hf]
  · rw [getHash_vector]
    unfold lookup toList
    simp [List.find?_map, Function.comp_def]

theorem nodup_fields (hd : h.Distinct) : (h.toList.map Prod.fst).Nodup := by
  rcases h with ⟨m | vec, n⟩
  · have hkeys : (m.toList.map fun p => (p.1, p.2.bytes)).map Prod.fst = m.toList.map Prod.fst := by
      simp [Function.comp_def]
    change ((m.toList.map fun p => (p.1, p.2.bytes)).map Prod.fst).Nodup
    rw [hkeys]
    refine List.pairwise_map.2 (m.distinct_keys_toList.imp fun {p q} hpq heq => ?_)
    exact hpq (Std.LawfulEqCmp.compare_eq_iff_eq.2 heq)
  · have hkeys : (vec.map fun p => (p.1.bytes, p.2.bytes)).map Prod.fst =
        vec.map (·.1.bytes) := by
      simp [Function.comp_def]
    change ((vec.map fun p => (p.1.bytes, p.2.bytes)).map Prod.fst).Nodup
    rw [hkeys]
    exact hd

end Order

end DrutaHash

/-! ## The loops -/

section Loops

variable {h h' : DrutaHash} {n : ℕ} {b b' : Bool}

/-- The arguments of an `HSET` for the fields and values. -/
def fieldArgs (ps : List (Bytes × Bytes)) : List Bytes := ps.flatMap fun p => [p.1, p.2]

theorem hsetLoop_distinct : ∀ (l : List Bytes) {h : DrutaHash} {n : ℕ} {b : Bool}, h.Distinct →
    (hsetLoop l h n b).1.Distinct
  | [], _, _, _, hd => hd
  | [_], _, _, _, hd => hd
  | _ :: _ :: l, _, _, _, hd => hsetLoop_distinct l (DrutaHash.distinct_setHash hd)

theorem hdelLoop_distinct : ∀ (l : List Bytes) {h : DrutaHash} {n : ℕ} {b : Bool}, h.Distinct →
    (hdelLoop l h n b).1.Distinct
  | [], _, _, _, hd => hd
  | _ :: l, _, _, _, hd => hdelLoop_distinct l (DrutaHash.distinct_delHash hd)

/-- Hashes with the same contents have the same contents after the loop of `HSET`, and as many
fields are created. -/
theorem hsetLoop_congr : ∀ (l : List Bytes) {h h' : DrutaHash} {n : ℕ} {b b' : Bool}, h.Distinct →
    h'.Distinct → h.getHash = h'.getHash →
      (hsetLoop l h n b).1.getHash = (hsetLoop l h' n b').1.getHash ∧
        (hsetLoop l h n b).2.1 = (hsetLoop l h' n b').2.1
  | [], _, _, _, _, _, _, _, heq => ⟨heq, rfl⟩
  | [_], _, _, _, _, _, _, _, heq => ⟨heq, rfl⟩
  | field :: value :: l, h, h', n, b, b', hd, hd', heq => by
    have hsnd : (h.setHash field value).2 = (h'.setHash field value).2 := by
      rw [DrutaHash.setHash_snd, DrutaHash.setHash_snd, heq]
    have hget : (h.setHash field value).1.getHash = (h'.setHash field value).1.getHash :=
      funext fun g => by rw [DrutaHash.getHash_setHash hd, DrutaHash.getHash_setHash hd', heq]
    unfold hsetLoop
    rw [hsnd]
    exact hsetLoop_congr l (DrutaHash.distinct_setHash hd) (DrutaHash.distinct_setHash hd') hget

theorem hdelLoop_congr : ∀ (l : List Bytes) {h h' : DrutaHash} {n : ℕ} {b b' : Bool}, h.Distinct →
    h'.Distinct → h.getHash = h'.getHash →
      (hdelLoop l h n b).1.getHash = (hdelLoop l h' n b').1.getHash ∧
        (hdelLoop l h n b).2.1 = (hdelLoop l h' n b').2.1
  | [], _, _, _, _, _, _, _, heq => ⟨heq, rfl⟩
  | field :: l, h, h', n, b, b', hd, hd', heq => by
    have hsnd : (h.delHash field).2 = (h'.delHash field).2 := by
      rw [DrutaHash.delHash_snd, DrutaHash.delHash_snd, heq]
    have hget : (h.delHash field).1.getHash = (h'.delHash field).1.getHash :=
      funext fun g => by rw [DrutaHash.getHash_delHash hd, DrutaHash.getHash_delHash hd', heq]
    unfold hdelLoop
    rw [hsnd]
    exact hdelLoop_congr l (DrutaHash.distinct_delHash hd) (DrutaHash.distinct_delHash hd') hget

/-- The contents after the loop of `HSET` over distinct fields. -/
theorem getHash_hsetLoop : ∀ {ps : List (Bytes × Bytes)} {h : DrutaHash} {n : ℕ} {b : Bool},
    h.Distinct → (ps.map Prod.fst).Nodup → ∀ g, (hsetLoop (fieldArgs ps) h n b).1.getHash g =
      ((ps.find? (·.1 = g)).map Prod.snd).or (h.getHash g)
  | [], h, n, b, _, _, g => rfl
  | p :: ps, h, n, b, hd, hps, g => by
    rw [List.map_cons, List.nodup_cons] at hps
    have hargs : fieldArgs (p :: ps) = p.1 :: p.2 :: fieldArgs ps := rfl
    rw [hargs, hsetLoop, getHash_hsetLoop (DrutaHash.distinct_setHash hd) hps.2 g,
      DrutaHash.getHash_setHash hd, List.find?_cons]
    by_cases hg : p.1 = g
    · have hnone : ps.find? (·.1 = g) = none := by
        refine List.find?_eq_none.2 fun q hq hqg => hps.1 ?_
        have hqg : q.1 = g := by simpa using hqg
        exact List.mem_map.2 ⟨q, hq, hqg.trans hg.symm⟩
      simp [hg, hnone]
    · simp [hg, Ne.symm hg]

/-- The loop of `HSET` rebuilds a hash from its fields and values. -/
theorem getHash_hsetLoop_toList (hd : h.Distinct) :
    (hsetLoop (fieldArgs h.toList) .empty n b).1.getHash = h.getHash := by
  funext g
  have hempty : DrutaHash.empty.Distinct := List.nodup_nil
  have hnone : DrutaHash.empty.getHash g = none := rfl
  rw [getHash_hsetLoop hempty (DrutaHash.nodup_fields hd), hnone, Option.or_none,
    DrutaHash.find?_toList hd]

/-- The counter of a value that is that of its hash stays so. -/
theorem shiftUsage_self {m n : ℕ} (hm : m < 2 ^ 64) (hn : n < 2 ^ 64) : shiftUsage m m n = n := by
  unfold shiftUsage
  split_ifs with h h'
  · rw [addSize_eq (by omega)]
    omega
  · rw [subSize_eq (by omega) hm]
    omega
  · omega

theorem pushLoop_back : ∀ (as l : List Bytes) (d : ℕ), (pushLoop false as l d).1 = l ++ as
  | [], l, d => (List.append_nil l).symm
  | a :: as, l, d => by
    rw [pushLoop, pushLoop_back as]
    simp

theorem mem_saddNewLoop : ∀ (as : List Bytes) (s : Std.ExtTreeSet Bytes) (u m : ℕ) (a : Bytes),
    a ∈ (saddNewLoop as s u m).1 ↔ a ∈ as ∨ a ∈ s
  | [], s, u, m, a => by simp [saddNewLoop]
  | c :: as, s, u, m, a => by
    unfold saddNewLoop
    rw [List.mem_cons]
    split_ifs with hc
    · rw [mem_saddNewLoop as, Std.ExtTreeSet.contains_iff_mem] at *
      grind
    · rw [mem_saddNewLoop as, Std.ExtTreeSet.mem_insert, Std.LawfulEqCmp.compare_eq_iff_eq]
      grind

theorem saddLoop_eq_saddNewLoop : ∀ (as : List Bytes) (s : Std.ExtTreeSet Bytes) (d : ℤ) (u n : ℕ),
    (saddLoop as s d n).1 = (saddNewLoop as s u n).1 ∧
      (saddLoop as s d n).2.2 = (saddNewLoop as s u n).2.2
  | [], _, _, _, _ => ⟨rfl, rfl⟩
  | a :: as, s, d, u, n => by
    unfold saddLoop saddNewLoop
    split_ifs
    · exact saddLoop_eq_saddNewLoop as s d u n
    · exact saddLoop_eq_saddNewLoop as _ _ _ _

/-- The loop of `SADD` rebuilds a set from its members. -/
theorem saddNewLoop_toList (s : Std.ExtTreeSet Bytes) (u m : ℕ) :
    (saddNewLoop s.toList ∅ u m).1 = s := by
  refine Std.ExtTreeSet.ext_mem fun a => ?_
  rw [mem_saddNewLoop, Std.ExtTreeSet.mem_toList]
  simp

end Loops

end DrutaDB
