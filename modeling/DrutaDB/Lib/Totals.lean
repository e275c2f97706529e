import DrutaDB.Lib.Machine
import Std.Data.ExtTreeMap
import Std.Data.ExtTreeSet

/-!
# Totals over a tree

The sum of a measure over the entries of a search tree, and how it changes with one entry; and the
sum as a `size_t` loop computes it.
-/

namespace Totals

open Machine

/-- The sum of a loop over `size_t`. -/
def sumSize (l : List ℕ) : ℕ := l.foldl addSize 0

theorem sumSize_eq (l : List ℕ) : sumSize l = toSize l.sum := by
  have hfold : ∀ (l : List ℕ) (n : ℕ), toSize n = n → l.foldl addSize n = toSize (n + l.sum : ℕ) := by
    intro l
    induction l with
    | nil => intro n hn; simpa using hn.symm
    | cons a l ih =>
      intro n _
      have hwrap : toSize (addSize n a : ℕ) = addSize n a := by
        unfold addSize toSize
        omega
      rw [List.foldl_cons, ih _ hwrap, List.sum_cons]
      unfold addSize toSize
      omega
  have h := hfold l 0 rfl
  rwa [Nat.zero_add] at h

variable {α β : Type*} [Ord α] [Std.TransOrd α] [Std.LawfulEqOrd α]

section Map

variable {m : Std.ExtTreeMap α β} {k : α} {v : β} (f : α × β → ℕ)

/-- The total of the entries of a map. -/
def mapTotal (m : Std.ExtTreeMap α β) : ℕ := (m.toList.map f).sum

theorem nodup_toList_map (m : Std.ExtTreeMap α β) : m.toList.Nodup :=
  m.distinct_keys_toList.imp fun {p q} hpq heq => hpq (by
    rw [heq]
    exact Std.ReflCmp.compare_self)

omit [Std.LawfulEqOrd α] in
@[simp]
theorem mapTotal_empty : mapTotal f (∅ : Std.ExtTreeMap α β) = 0 := rfl

/-- One entry more. -/
theorem mapTotal_insert (h : m[k]? = none) (v : β) :
    mapTotal f (m.insert k v) = f (k, v) + mapTotal f m := by
  have hmem : (k, v) ∉ m.toList := fun hc => by
    rw [Std.ExtTreeMap.mem_toList_iff_getElem?_eq_some, h] at hc
    cases hc
  have hperm : (m.insert k v).toList.Perm ((k, v) :: m.toList) := by
    refine (List.perm_ext_iff_of_nodup (nodup_toList_map _)
      (List.nodup_cons.2 ⟨hmem, nodup_toList_map m⟩)).2 ?_
    rintro ⟨a, b⟩
    rw [List.mem_cons, Std.ExtTreeMap.mem_toList_iff_getElem?_eq_some,
      Std.ExtTreeMap.mem_toList_iff_getElem?_eq_some, Std.ExtTreeMap.getElem?_insert]
    split_ifs with hk <;> rw [Std.LawfulEqCmp.compare_eq_iff_eq] at hk
    · subst hk
      rw [h]
      simp [eq_comm]
    · simp [Ne.symm hk]
  unfold mapTotal
  rw [(hperm.map f).sum_eq, List.map_cons, List.sum_cons]

/-- One entry less. -/
theorem mapTotal_erase (h : m[k]? = some v) : mapTotal f m = f (k, v) + mapTotal f (m.erase k) := by
  have hnone : (m.erase k)[k]? = none := by
    rw [Std.ExtTreeMap.getElem?_erase, if_pos Std.ReflCmp.compare_self]
  have hback : (m.erase k).insert k v = m := by
    refine Std.ExtTreeMap.ext_getElem? fun a => ?_
    rw [Std.ExtTreeMap.getElem?_insert, Std.ExtTreeMap.getElem?_erase]
    split_ifs with hk
    · rw [← Std.LawfulEqCmp.compare_eq_iff_eq.1 hk, h]
    · rfl
  rw [← mapTotal_insert f hnone, hback]

/-- One entry for another. -/
theorem mapTotal_overwrite (h : m[k]? = some v) (w : β) :
    mapTotal f (m.insert k w) + f (k, v) = mapTotal f m + f (k, w) := by
  have hnone : (m.erase k)[k]? = none := by
    rw [Std.ExtTreeMap.getElem?_erase, if_pos Std.ReflCmp.compare_self]
  have hinsert : (m.erase k).insert k w = m.insert k w := by
    refine Std.ExtTreeMap.ext_getElem? fun a => ?_
    rw [Std.ExtTreeMap.getElem?_insert, Std.ExtTreeMap.getElem?_insert,
      Std.ExtTreeMap.getElem?_erase]
    split_ifs <;> rfl
  rw [← hinsert, mapTotal_insert f hnone, mapTotal_erase f h]
  omega

end Map

section Set

variable {s : Std.ExtTreeSet α} {a : α} (f : α → ℕ)

/-- The total of the members of a set. -/
def setTotal (s : Std.ExtTreeSet α) : ℕ := (s.toList.map f).sum

theorem nodup_toList_set (s : Std.ExtTreeSet α) : s.toList.Nodup :=
  s.distinct_toList.imp fun {p q} hpq heq => hpq (by
    rw [heq]
    exact Std.ReflCmp.compare_self)

omit [Std.LawfulEqOrd α] in
@[simp]
theorem setTotal_empty : setTotal f (∅ : Std.ExtTreeSet α) = 0 := rfl

theorem setTotal_insert (h : a ∉ s) : setTotal f (s.insert a) = f a + setTotal f s := by
  have hperm : (s.insert a).toList.Perm (a :: s.toList) := by
    refine (List.perm_ext_iff_of_nodup (nodup_toList_set _)
      (List.nodup_cons.2 ⟨fun hc => h (Std.ExtTreeSet.mem_toList.1 hc), nodup_toList_set s⟩)).2 ?_
    intro b
    rw [List.mem_cons, Std.ExtTreeSet.mem_toList, Std.ExtTreeSet.mem_toList,
      Std.ExtTreeSet.mem_insert, Std.LawfulEqCmp.compare_eq_iff_eq]
    exact or_congr_left eq_comm
  unfold setTotal
  rw [(hperm.map f).sum_eq, List.map_cons, List.sum_cons]

theorem setTotal_erase (h : a ∈ s) : setTotal f s = f a + setTotal f (s.erase a) := by
  have hnot : a ∉ s.erase a := by simp
  have hback : (s.erase a).insert a = s := by
    refine Std.ExtTreeSet.ext_mem fun b => ?_
    rw [Std.ExtTreeSet.mem_insert, Std.ExtTreeSet.mem_erase]
    simp only [Std.LawfulEqCmp.compare_eq_iff_eq, ne_eq]
    constructor
    · rintro (rfl | hb)
      · exact h
      · exact hb.2
    · intro hb
      by_cases hab : a = b
      · exact .inl hab
      · exact .inr ⟨hab, hb⟩
  rw [← setTotal_insert f hnot, hback]

end Set

end Totals
