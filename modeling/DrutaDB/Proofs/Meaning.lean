import DrutaDB.Database
import DrutaDB.Proofs.FieldMap
import DrutaDB.Proofs.Twins

/-!
# What values stand for

A hash stands for a finite map in both of its forms, a tree for a finite set, and the loops of the
commands work on them as on these (`fields_hsetLoop`, `elements_saddLoop`).  What the loops count is
how many elements the one has and the other has not.
-/

namespace DrutaDB

open Machine Decimal

/-- The fields of a hash and their values. -/
def DrutaHash.fields (h : DrutaHash) : Finmap fun _ : Bytes => Bytes :=
  (h.toList.map fun p => (⟨p.1, p.2⟩ : Sigma fun _ : Bytes => Bytes)).toFinmap

def elements (t : Std.ExtTreeSet Bytes) : Finset Bytes := t.toList.toFinset

def DrutaValue.meaning (v : DrutaValue) : Value Bytes :=
  match v.data with
  | .string s => .string s v.expiryTime
  | .list l => .list l
  | .hash h => .hash h.fields
  | .set t => .set (elements t)

/-- What the keys of a server stand for. -/
def Server.database (s : Server) : Database Bytes := fun key =>
  (s.store.value key).map DrutaValue.meaning

/-! ## Counting -/

section Counting

variable {β : Type*} [DecidableEq β]

theorem card_insert_sdiff (a : β) (s t : Finset β) :
    (insert a s \ t).card = (if a ∈ t then 0 else 1) + (s \ insert a t).card := by
  split_ifs with h
  · rw [Finset.insert_sdiff_of_mem s h, Finset.insert_eq_of_mem h, Nat.zero_add]
  · have hinsert : insert a s \ t = insert a (s \ insert a t) := by
      ext b
      simp only [Finset.mem_sdiff, Finset.mem_insert]
      grind
    rw [hinsert, Finset.card_insert_of_notMem (by simp), Nat.add_comm]

theorem card_insert_inter (a : β) (s t : Finset β) :
    (insert a s ∩ t).card = (if a ∈ t then 1 else 0) + (s ∩ t.erase a).card := by
  split_ifs with h
  · have hinsert : insert a s ∩ t = insert a (s ∩ t.erase a) := by
      ext b
      simp only [Finset.mem_inter, Finset.mem_insert, Finset.mem_erase]
      grind
    rw [hinsert, Finset.card_insert_of_notMem (by simp), Nat.add_comm]
  · rw [Finset.insert_inter_of_notMem h, Finset.erase_eq_of_notMem h, Nat.zero_add]

end Counting

/-! ## Hashes -/

section Hashes

variable {h : DrutaHash} {field value : Bytes}

theorem dlookup_map (field : Bytes) : ∀ l : List (Bytes × Bytes),
    (l.map fun p => (⟨p.1, p.2⟩ : Sigma fun _ : Bytes => Bytes)).dlookup field =
      (l.find? (·.1 = field)).map Prod.snd
  | [] => rfl
  | p :: l => by
    rw [List.map_cons, List.find?_cons]
    by_cases hp : p.1 = field
    · subst hp
      simp
    · have hne := List.dlookup_cons_ne (l.map fun p => (⟨p.1, p.2⟩ : Sigma fun _ : Bytes => Bytes))
        ⟨p.1, p.2⟩ (Ne.symm hp)
      rw [hne, dlookup_map field l]
      simp [hp]

theorem lookup_fields (hd : h.Distinct) (field : Bytes) :
    h.fields.lookup field = h.getHash field := by
  unfold DrutaHash.fields
  rw [Finmap.dlookup_list_toFinmap, dlookup_map, DrutaHash.find?_toList hd]

theorem fields_setHash (hd : h.Distinct) :
    (h.setHash field value).1.fields = h.fields.insert field value := by
  refine Finmap.ext_lookup fun g => ?_
  rw [lookup_fields (DrutaHash.distinct_setHash hd), DrutaHash.getHash_setHash hd]
  split_ifs with hg
  · rw [hg, Finmap.lookup_insert]
  · rw [Finmap.lookup_insert_of_ne _ hg, lookup_fields hd]

theorem fields_delHash (hd : h.Distinct) : (h.delHash field).1.fields = h.fields.erase field := by
  refine Finmap.ext_lookup fun g => ?_
  rw [lookup_fields (DrutaHash.distinct_delHash hd), DrutaHash.getHash_delHash hd]
  split_ifs with hg
  · rw [hg, Finmap.lookup_erase]
  · rw [Finmap.lookup_erase_ne hg, lookup_fields hd]

theorem mem_keys_fields (hd : h.Distinct) : field ∈ h.fields.keys ↔ (h.getHash field).isSome := by
  rw [Finmap.mem_keys, ← Finmap.lookup_isSome, lookup_fields hd]

theorem keys_insert (m : Finmap fun _ : Bytes => Bytes) (field value : Bytes) :
    (m.insert field value).keys = insert field m.keys := by
  ext g
  rw [Finmap.mem_keys, Finmap.mem_insert, Finset.mem_insert, Finmap.mem_keys]

/-- The loop of `HSET` sets the fields one after the other, and counts those that are new. -/
theorem fields_hsetLoop : ∀ (l : List Bytes) {h : DrutaHash} {n : ℕ} {b : Bool}, h.Distinct →
    (hsetLoop l h n b).1.fields = putAll h.fields (pairs l) ∧
      (hsetLoop l h n b).2.1 = n + (((pairs l).map Prod.fst).toFinset \ h.fields.keys).card
  | [], _, _, _, _ => ⟨rfl, by simp [hsetLoop, pairs]⟩
  | [_], _, _, _, _ => ⟨rfl, by simp [hsetLoop, pairs]⟩
  | field :: value :: l, h, n, b, hd => by
    unfold hsetLoop
    obtain ⟨hfields, hcount⟩ := @fields_hsetLoop l (h.setHash field value).1
      (if (h.setHash field value).2 then n + 1 else n) (b || h.setHashWraps field)
      (DrutaHash.distinct_setHash hd)
    rw [hfields, hcount, fields_setHash hd, keys_insert]
    refine ⟨rfl, ?_⟩
    rw [pairs, List.map_cons, List.toFinset_cons, card_insert_sdiff, DrutaHash.setHash_snd]
    simp only [mem_keys_fields hd]
    rcases h.getHash field with _ | v
    · simp only [Option.isNone_none, Option.isSome_none, if_true, Bool.false_eq_true, if_false]
      omega
    · simp only [Option.isNone_some, Option.isSome_some, if_true, Bool.false_eq_true, if_false]
      omega

/-- The loop of `HDEL` takes the fields away, and counts those that were there. -/
theorem fields_hdelLoop : ∀ (l : List Bytes) {h : DrutaHash} {n : ℕ} {b : Bool}, h.Distinct →
    (hdelLoop l h n b).1.fields = removeAll h.fields l ∧
      (hdelLoop l h n b).2.1 = n + (l.toFinset ∩ h.fields.keys).card
  | [], _, _, _, _ => ⟨rfl, by simp [hdelLoop]⟩
  | field :: l, h, n, b, hd => by
    unfold hdelLoop
    obtain ⟨hfields, hcount⟩ := @fields_hdelLoop l (h.delHash field).1
      (if (h.delHash field).2 then n + 1 else n) (b || h.delHashWraps field)
      (DrutaHash.distinct_delHash hd)
    rw [hfields, hcount, fields_delHash hd, Finmap.keys_erase]
    refine ⟨rfl, ?_⟩
    rw [List.toFinset_cons, card_insert_inter, DrutaHash.delHash_snd]
    simp only [mem_keys_fields hd]
    rcases h.getHash field with _ | v
    · simp only [Option.isSome_none, Bool.false_eq_true, if_false]
      omega
    · simp only [Option.isSome_some, if_true]
      omega

theorem size_eq_card (hd : h.Distinct) : h.size = h.fields.keys.card := by
  have hkeys : h.fields.keys = (h.toList.map Prod.fst).toFinset := by
    ext f
    rw [mem_keys_fields hd, List.mem_toFinset, List.mem_map]
    simp only [Prod.exists, exists_and_right, exists_eq_right, Option.isSome_iff_exists,
      DrutaHash.mem_toList_iff hd]
  rw [hkeys, List.toFinset_card_of_nodup (DrutaHash.nodup_fields hd), List.length_map,
    DrutaHash.size_eq]

end Hashes

/-! ## Sets -/

section Sets

variable {t : Std.ExtTreeSet Bytes} {a : Bytes}

@[simp] theorem mem_elements : a ∈ elements t ↔ a ∈ t := by
  rw [elements, List.mem_toFinset, Std.ExtTreeSet.mem_toList]

theorem contains_iff_elements : t.contains a = true ↔ a ∈ elements t :=
  Std.ExtTreeSet.contains_iff_mem.trans mem_elements.symm

theorem elements_insert (t : Std.ExtTreeSet Bytes) (a : Bytes) :
    elements (t.insert a) = insert a (elements t) := by
  ext b
  rw [mem_elements, Std.ExtTreeSet.mem_insert, Std.LawfulEqCmp.compare_eq_iff_eq,
    Finset.mem_insert, mem_elements, eq_comm]

theorem elements_erase (t : Std.ExtTreeSet Bytes) (a : Bytes) :
    elements (t.erase a) = (elements t).erase a := by
  ext b
  rw [mem_elements, Std.ExtTreeSet.mem_erase, ne_eq, Std.LawfulEqCmp.compare_eq_iff_eq,
    Finset.mem_erase, mem_elements, ne_eq, eq_comm]

theorem elements_empty : elements ∅ = ∅ := rfl

theorem size_eq_elements (t : Std.ExtTreeSet Bytes) : t.size = (elements t).card := by
  have hnodup : t.toList.Nodup := t.distinct_toList.imp fun {a b} hab (heq : a = b) =>
    hab (Std.LawfulEqCmp.compare_eq_iff_eq.2 heq)
  rw [elements, List.toFinset_card_of_nodup hnodup, Std.ExtTreeSet.length_toList]

/-- The loop of `SADD` adds the members, and counts those that are new. -/
theorem elements_saddNewLoop : ∀ (as : List Bytes) (t : Std.ExtTreeSet Bytes) (u n : ℕ),
    elements (saddNewLoop as t u n).1 = elements t ∪ as.toFinset ∧
      (saddNewLoop as t u n).2.2 = n + (as.toFinset \ elements t).card
  | [], _, _, _ => by simp [saddNewLoop]
  | a :: as, t, u, n => by
    unfold saddNewLoop
    rw [List.toFinset_cons, card_insert_sdiff]
    split_ifs with hc hmem hmem
    · obtain ⟨helements, hcount⟩ := elements_saddNewLoop as t u n
      have hself : insert a (elements t) = elements t :=
        Finset.insert_eq_of_mem hmem
      rw [helements, hcount, Finset.union_insert, ← Finset.insert_union, hself]
      exact ⟨rfl, by omega⟩
    · exact absurd (contains_iff_elements.1 hc) hmem
    · exact absurd (contains_iff_elements.2 hmem) hc
    · obtain ⟨helements, hcount⟩ := elements_saddNewLoop as (t.insert a)
        (addSize u (setElementUsage a)) (n + 1)
      rw [helements, hcount, elements_insert, Finset.union_insert, ← Finset.insert_union]
      exact ⟨rfl, by omega⟩

theorem elements_saddLoop (as : List Bytes) (t : Std.ExtTreeSet Bytes) (d : ℤ) (n : ℕ) :
    elements (saddLoop as t d n).1 = elements t ∪ as.toFinset ∧
      (saddLoop as t d n).2.2 = n + (as.toFinset \ elements t).card := by
  obtain ⟨hset, hcount⟩ := saddLoop_eq_saddNewLoop as t d 0 n
  rw [hset, hcount]
  exact elements_saddNewLoop as t 0 n

/-- The loop of `SDEL` takes the members away, and counts those that were there. -/
theorem elements_sdelLoop : ∀ (as : List Bytes) (t : Std.ExtTreeSet Bytes) (d : ℤ) (n : ℕ),
    elements (sdelLoop as t d n).1 = elements t \ as.toFinset ∧
      (sdelLoop as t d n).2.2 = n + (as.toFinset ∩ elements t).card
  | [], _, _, _ => by simp [sdelLoop]
  | a :: as, t, d, n => by
    unfold sdelLoop
    rw [List.toFinset_cons, card_insert_inter, Finset.sdiff_insert]
    split_ifs with hc hmem hmem
    · obtain ⟨helements, hcount⟩ := elements_sdelLoop as (t.erase a)
        (toInt (toSize (d + setElementUsage a))) (n + 1)
      rw [helements, hcount, elements_erase, Finset.erase_sdiff_comm]
      exact ⟨rfl, by omega⟩
    · exact absurd (contains_iff_elements.1 hc) hmem
    · exact absurd (contains_iff_elements.2 hmem) hc
    · obtain ⟨helements, hcount⟩ := elements_sdelLoop as t d n
      have hself : (elements t).erase a = elements t :=
        Finset.erase_eq_of_notMem hmem
      rw [helements, hcount, ← Finset.erase_sdiff_comm, hself]
      exact ⟨rfl, by omega⟩

end Sets

end DrutaDB
