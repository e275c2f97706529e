import DrutaDB.Proofs.Contents

/-!
# Calls on a hash

After any calls on the empty hash, a field has the value it was last set to, unless it was deleted
since (`LastSet`), also across the conversion to a map.  That is what `get_hash` finds, what
`set_hash` and `del_hash` return, what `size` counts and what `HGETALL` lists (`hash_refines`).
-/

namespace DrutaDB

open Machine Decimal Capacity

/-- A call on a hash. -/
inductive HashCall
  | set (field value : Bytes)
  | del (field : Bytes)
  | get (field : Bytes)

namespace HashCall

/-- The hash after a call. -/
def run (h : DrutaHash) : HashCall → DrutaHash
  | .set field value => (h.setHash field value).1
  | .del field => (h.delHash field).1
  | .get _ => h

/-- The call sets or deletes the field. -/
def Writes (field : Bytes) : HashCall → Prop
  | .set f _ => f = field
  | .del f => f = field
  | .get _ => False

end HashCall

/-- The empty hash after the calls. -/
def hashAfter (calls : List HashCall) : DrutaHash := calls.foldl HashCall.run .empty

/-- The last call that sets or deletes the field sets it to the value. -/
def LastSet (calls : List HashCall) (field value : Bytes) : Prop :=
  ∃ before after, calls = before ++ .set field value :: after ∧ ∀ c ∈ after, ¬ c.Writes field

/-- A vector has at most `DRUTA_MAX_KEY` entries. -/
def DrutaHash.Small (h : DrutaHash) : Prop :=
  match h.data with
  | .vector vec => vec.length ≤ drutaMaxKey
  | .map _ => True

section LastSet

variable {calls : List HashCall} {c : HashCall} {field value : Bytes}

theorem not_lastSet_nil : ¬ LastSet [] field value := by
  rintro ⟨before, after, heq, -⟩
  simp at heq

theorem lastSet_snoc_of_writes (hc : c.Writes field) :
    LastSet (calls ++ [c]) field value ↔ c = .set field value := by
  constructor
  · rintro ⟨before, after, heq, hafter⟩
    rcases List.eq_nil_or_concat' after with rfl | ⟨init, d, rfl⟩
    · exact List.singleton_inj.1 (List.append_inj' heq rfl).2
    · rw [← List.cons_append, ← List.append_assoc] at heq
      obtain rfl := List.singleton_inj.1 (List.append_inj' heq rfl).2
      exact absurd hc (hafter c (by simp))
  · rintro rfl
    exact ⟨calls, [], rfl, by simp⟩

theorem lastSet_snoc_of_not_writes (hc : ¬ c.Writes field) :
    LastSet (calls ++ [c]) field value ↔ LastSet calls field value := by
  constructor
  · rintro ⟨before, after, heq, hafter⟩
    rcases List.eq_nil_or_concat' after with rfl | ⟨init, d, rfl⟩
    · obtain rfl := List.singleton_inj.1 (List.append_inj' heq rfl).2
      exact absurd rfl hc
    · rw [← List.cons_append, ← List.append_assoc] at heq
      exact ⟨before, init, (List.append_inj' heq rfl).1, fun d hd => hafter d (by simp [hd])⟩
  · rintro ⟨before, after, rfl, hafter⟩
    refine ⟨before, after ++ [c], by simp, fun d hd => ?_⟩
    rcases List.mem_append.1 hd with hd | hd
    · exact hafter d hd
    · exact List.mem_singleton.1 hd ▸ hc

end LastSet

namespace DrutaHash

variable {h : DrutaHash} {field value : Bytes}

theorem small_setHash (hs : h.Small) : (h.setHash field value).1.Small := by
  rcases h with ⟨m | vec, n⟩
  · rcases hm : m[field]? with _ | old <;> simp only [setHash, hm] <;> trivial
  · have hlen : vec.length ≤ drutaMaxKey := hs
    rcases hv : vec.find? (·.1.bytes = field) with _ | p <;> simp only [setHash, hv]
    · split_ifs with hmax
      · trivial
      · change (vec ++ [_]).length ≤ drutaMaxKey
        rw [List.length_append, List.length_singleton]
        omega
    · have hfields := congrArg List.length (fields_assignVec field value vec)
      rw [List.length_map, List.length_map] at hfields
      exact hfields.trans_le hlen

theorem small_delHash (hs : h.Small) : (h.delHash field).1.Small := by
  rcases h with ⟨m | vec, n⟩
  · rcases hm : m[field]? with _ | old <;> simp only [delHash, hm] <;> trivial
  · have hlen : vec.length ≤ drutaMaxKey := hs
    rcases hv : vec.find? (·.1.bytes = field) with _ | p <;> simp only [delHash, hv]
    · exact hs
    · have hfields := congrArg List.length (@fields_eraseVec field vec)
      rw [List.length_map] at hfields
      exact (hfields.trans_le List.length_erase_le).trans (by rwa [List.length_map])

theorem mem_toList_iff (hd : h.Distinct) :
    (field, value) ∈ h.toList ↔ h.getHash field = some value := by
  rw [← find?_toList hd field, Option.map_eq_some_iff]
  constructor
  · intro hmem
    rcases hf : h.toList.find? (·.1 = field) with _ | p
    · simpa using List.find?_eq_none.1 hf _ hmem
    · have hp : p.1 = field := by simpa using List.find?_some hf
      refine ⟨p, hf, ?_⟩
      have heq := List.inj_on_of_nodup_map (nodup_fields hd) (List.mem_of_find?_eq_some hf) hmem hp
      rw [heq]
  · rintro ⟨p, hf, rfl⟩
    have hp : p.1 = field := by simpa using List.find?_some hf
    rw [← hp]
    exact List.mem_of_find?_eq_some hf

/-- The size is the number of fields that have a value. -/
theorem size_eq_ncard (hd : h.Distinct) : h.size = {f | (h.getHash f).isSome}.ncard := by
  have hset : {f | (h.getHash f).isSome} = ((h.toList.map Prod.fst).toFinset : Set Bytes) := by
    ext f
    simp only [Set.mem_ofPred_eq, List.coe_toFinset, List.mem_map, Prod.exists, exists_and_right,
      exists_eq_right, Option.isSome_iff_exists, mem_toList_iff hd]
  rw [hset, Set.ncard_coe_finset, List.toFinset_card_of_nodup (nodup_fields hd), List.length_map,
    size_eq]

end DrutaHash

/-- What the calls keep between the hash and the last values. -/
theorem hashAfter_invariant (calls : List HashCall) :
    (hashAfter calls).Distinct ∧ (hashAfter calls).Small ∧
      ∀ field value, (hashAfter calls).getHash field = some value ↔ LastSet calls field value := by
  induction calls using List.reverseRecOn with
  | nil =>
    refine ⟨List.nodup_nil, Nat.zero_le _, fun field value => ?_⟩
    exact iff_of_false (fun hc => by cases hc) not_lastSet_nil
  | append_singleton calls c ih =>
    obtain ⟨hd, hs, hget⟩ := ih
    have hrun : hashAfter (calls ++ [c]) = c.run (hashAfter calls) := by
      simp [hashAfter]
    rw [hrun]
    cases c with
    | set f v =>
      refine ⟨DrutaHash.distinct_setHash hd, DrutaHash.small_setHash hs, fun field value => ?_⟩
      rw [HashCall.run, DrutaHash.getHash_setHash hd]
      split_ifs with hf
      · have hw : (HashCall.set f v).Writes field := hf.symm
        rw [lastSet_snoc_of_writes hw, hf]
        simp
      · have hw : ¬ (HashCall.set f v).Writes field := fun hc => hf (Eq.symm hc)
        rw [lastSet_snoc_of_not_writes hw, hget]
    | del f =>
      refine ⟨DrutaHash.distinct_delHash hd, DrutaHash.small_delHash hs, fun field value => ?_⟩
      rw [HashCall.run, DrutaHash.getHash_delHash hd]
      split_ifs with hf
      · have hw : (HashCall.del f).Writes field := hf.symm
        rw [lastSet_snoc_of_writes hw]
        simp
      · have hw : ¬ (HashCall.del f).Writes field := fun hc => hf (Eq.symm hc)
        rw [lastSet_snoc_of_not_writes hw, hget]
    | get f =>
      refine ⟨hd, hs, fun field value => ?_⟩
      have hw : ¬ (HashCall.get f).Writes field := id
      rw [lastSet_snoc_of_not_writes hw, ← hget]
      rfl

/-- A hash is the finite map of the last values. -/
theorem hash_refines (calls : List HashCall) :
    (∀ field value, (hashAfter calls).getHash field = some value ↔ LastSet calls field value) ∧
    (∀ field value, ((hashAfter calls).setHash field value).2 = true ↔
      ¬ ∃ w, LastSet calls field w) ∧
    (∀ field, ((hashAfter calls).delHash field).2 = true ↔ ∃ w, LastSet calls field w) ∧
    (hashAfter calls).size = {field | ∃ w, LastSet calls field w}.ncard ∧
    ((hashAfter calls).toList.map Prod.fst).Nodup ∧
    (∀ field value, (field, value) ∈ (hashAfter calls).toList ↔ LastSet calls field value) ∧
    (hashAfter calls).Distinct ∧ (hashAfter calls).Small := by
  obtain ⟨hd, hs, hget⟩ := hashAfter_invariant calls
  have hsome : ∀ field, ((hashAfter calls).getHash field).isSome = true ↔
      ∃ w, LastSet calls field w := by
    intro field
    simp only [Option.isSome_iff_exists, hget]
  refine ⟨hget, fun field value => ?_, fun field => ?_, ?_, DrutaHash.nodup_fields hd,
    fun field value => ?_, hd, hs⟩
  · rw [DrutaHash.setHash_snd, ← hsome, ← Option.not_isSome, Bool.not_eq_true', Bool.not_eq_true]
  · rw [DrutaHash.delHash_snd, hsome]
  · simp only [DrutaHash.size_eq_ncard hd, hsome]
  · rw [DrutaHash.mem_toList_iff hd, hget]

end DrutaDB
