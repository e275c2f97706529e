import DrutaDB.Proofs.Visible

/-!
# Intersections, unions and differences

Over keys that hold sets or are missing, `SINTER`, `SUNION` and `SDIFF` answer with the
mathematical operation on what the keys hold, in ascending order, and change nothing
(`set_algebra`).
-/

namespace DrutaDB

open Decimal Run Store

/-- What a key holds of a set; nothing, if it is missing. -/
def setAt (s : Store) (key : Bytes) : Set Bytes := {a | HoldsMember s a key}

/-- The reply is the array of the members, each once and in ascending order, and the store stays
as it is. -/
def AnswersSet (m : StoreM (Bytes × Bool)) (s : Store) (A : Set Bytes) : Prop :=
  ∃ l : List Bytes, m s = .ok ((respArrayOf l, false), s) ∧ l.Pairwise (· < ·) ∧
    ∀ a, a ∈ l ↔ a ∈ A

section Answers

variable {m m' : StoreM (Bytes × Bool)} {s : Store} {A : Set Bytes}

/-- The order of the tree is that of `std::string`. -/
theorem compare_lt_iff : ∀ a b : Bytes, compare a b = .lt ↔ a < b
  | [], [] => by simp
  | [], b :: bs => by simp
  | a :: as, [] => by simp
  | a :: as, b :: bs => by
    rw [List.cons_lt_cons_iff, ← compare_lt_iff as bs, List.compare_eq_compareLex,
      List.compareLex_cons_cons, Ordering.then_eq_lt, Std.compare_eq_lt,
      Std.LawfulEqCmp.compare_eq_iff_eq]

theorem answersSet_toList {t : Std.ExtTreeSet Bytes}
    (hm : m s = .ok ((respArrayOf t.toList, false), s)) (hA : ∀ a, a ∈ t ↔ a ∈ A) :
    AnswersSet m s A := by
  refine ⟨t.toList, hm, ?_, fun a => Std.ExtTreeSet.mem_toList.trans (hA a)⟩
  exact Std.ExtTreeSet.ordered_toList.imp fun {a b} hab => (compare_lt_iff a b).1 hab

/-- There is one such reply. -/
theorem AnswersSet.congr (h : AnswersSet m s A) (h' : AnswersSet m' s A) : m s = m' s := by
  obtain ⟨l, hm, hl, hmem⟩ := h
  obtain ⟨l', hm', hl', hmem'⟩ := h'
  have hnodup : ∀ {l : List Bytes}, l.Pairwise (· < ·) → l.Nodup := fun hl =>
    hl.imp fun {a b} hab (heq : a = b) => List.lt_irrefl b (heq ▸ hab)
  have hperm : l.Perm l' := (List.perm_ext_iff_of_nodup (hnodup hl) (hnodup hl')).2 fun a =>
    (hmem a).trans (hmem' a).symm
  have heq : l = l' := hperm.eq_of_pairwise
    (fun a b _ _ hab hba => absurd (List.lt_trans hab hba) (List.lt_irrefl a)) hl hl'
  rw [hm, hm', heq]

end Answers

section Loops

variable {s : Store}

theorem mem_members_iff (s : Store) (key a : Bytes) : a ∈ members (s.value key) ↔ a ∈ setAt s key := by
  change _ ↔ HoldsMember s a key
  rcases holds_cases s key with ⟨hv, hno⟩ | ⟨v, t, hv, ht, hmember⟩ | ⟨v, hv, hk⟩
  · rw [hv]
    exact iff_of_false (List.not_mem_nil) (hno a)
  · rcases v with ⟨d, e, n⟩
    obtain rfl : d = .set t := ht
    rw [hv, hmember]
    exact Std.ExtTreeSet.mem_toList
  · rcases v with ⟨d, e, n⟩
    refine iff_of_false (fun ha => ?_) fun ⟨w, t, hw, ht, _⟩ => ?_
    · rw [hv] at ha
      rcases d with _ | _ | _ | t
      case set => exact hk rfl
      all_goals exact List.not_mem_nil ha
    · obtain rfl := Option.some.inj (hv.symm.trans hw)
      exact hk (congrArg Data.kind ht)

theorem mem_foldl_insertAll (a : Bytes) : ∀ (l : List Bytes) (u : Std.ExtTreeSet Bytes),
    a ∈ l.foldl (·.insert ·) u ↔ a ∈ u ∨ a ∈ l
  | [], u => by simp
  | b :: l, u => by
    rw [List.foldl_cons, mem_foldl_insertAll a l, Std.ExtTreeSet.mem_insert,
      Std.LawfulEqCmp.compare_eq_iff_eq, List.mem_cons]
    tauto

theorem mem_foldl_erase (a : Bytes) : ∀ (l : List Bytes) (d : Std.ExtTreeSet Bytes),
    a ∈ l.foldl (fun d b => if d.contains b then d.erase b else d) d ↔ a ∈ d ∧ a ∉ l
  | [], d => by simp
  | b :: l, d => by
    rw [List.foldl_cons, mem_foldl_erase a l, List.mem_cons]
    split_ifs with hb
    · rw [Std.ExtTreeSet.mem_erase, ne_eq, Std.LawfulEqCmp.compare_eq_iff_eq]
      tauto
    · rw [Std.ExtTreeSet.contains_iff_mem] at hb
      grind

/-- The union so far, and what the keys hold. -/
theorem mem_unionAll (a : Bytes) : ∀ (keys : List Bytes) (u : Std.ExtTreeSet Bytes),
    a ∈ keys.foldl (fun u key => (members (s.value key)).foldl (·.insert ·) u) u ↔
      a ∈ u ∨ ∃ key ∈ keys, a ∈ setAt s key
  | [], u => by simp
  | key :: keys, u => by
    rw [List.foldl_cons, mem_unionAll a keys, mem_foldl_insertAll, mem_members_iff, or_assoc]
    simp

/-- The difference so far, without what the keys hold. -/
theorem mem_diffAll (a : Bytes) : ∀ (keys : List Bytes) (d : Std.ExtTreeSet Bytes),
    a ∈ keys.foldl (fun d key => (members (s.value key)).foldl
      (fun d b => if d.contains b then d.erase b else d) d) d ↔
      a ∈ d ∧ ∀ key ∈ keys, a ∉ setAt s key
  | [], d => by simp
  | key :: keys, d => by
    rw [List.foldl_cons, mem_diffAll a keys, mem_foldl_erase, mem_members_iff, and_assoc,
      List.forall_mem_cons]

/-- The intersection so far, and what all keys hold; where it is empty the loop stops. -/
theorem sinterLoop_eq : ∀ (keys : List Bytes), (∀ key ∈ keys, ¬ HoldsOther s key) →
    ∀ inter : Std.ExtTreeSet Bytes, ∃ t, sinterLoop keys inter s = .ok (some t, s) ∧
      ∀ a, a ∈ t ↔ a ∈ inter ∧ ∀ key ∈ keys, a ∈ setAt s key
  | [], _, inter => ⟨inter, rfl, fun a => by simp⟩
  | key :: keys, hkeys, inter => by
    unfold sinterLoop
    rw [bind_ok (find_value s key)]
    rw [List.forall_mem_cons] at hkeys
    rcases holds_cases s key with ⟨hv, hno⟩ | ⟨v, t, hv, ht, hmember⟩ | hother
    · rw [hv]
      refine ⟨∅, rfl, fun a => iff_of_false Std.ExtTreeSet.not_mem_empty fun hc => ?_⟩
      exact hno a (hc.2 key List.mem_cons_self)
    · simp only [hv, ht]
      set next := inter.toList.foldl
        (fun n a => if t.contains a then n.insert a else n) (∅ : Std.ExtTreeSet Bytes) with hnext
      have hmem : ∀ a, a ∈ next ↔ a ∈ inter ∧ a ∈ setAt s key := fun a => by
        rw [hnext, mem_foldl_insert, Std.ExtTreeSet.mem_toList]
        change _ ↔ a ∈ inter ∧ HoldsMember s a key
        rw [hmember]
        simp
      split_ifs with hempty
      · refine ⟨next, rfl, fun a => ?_⟩
        have hno : a ∉ next := by
          rw [Std.ExtTreeSet.isEmpty_iff.1 hempty]
          exact Std.ExtTreeSet.not_mem_empty
        refine iff_of_false hno fun hc => hno ((hmem a).2 ⟨hc.1, ?_⟩)
        exact hc.2 key List.mem_cons_self
      · obtain ⟨t', ht', hall⟩ := sinterLoop_eq keys hkeys.2 next
        refine ⟨t', ht', fun a => ?_⟩
        rw [hall a, hmem a, and_assoc, List.forall_mem_cons]
    · exact absurd hother hkeys.1

end Loops

section Commands

variable {s : Store}

theorem commandSunion_answers_set (s : Store) (cmd first : Bytes) (rest : List Bytes) :
    AnswersSet (commandSunion (cmd :: first :: rest)) s (⋃ key ∈ first :: rest, setAt s key) := by
  refine answersSet_toList (t := (first :: rest).foldl
    (fun u key => (members (s.value key)).foldl (·.insert ·) u) ∅) ?_ fun a => ?_
  · unfold commandSunion
    rw [if_neg (by simp)]
    exact bind_ok (sunionLoop_eq s _ _)
  · rw [mem_unionAll, Set.mem_iUnion₂]
    simp

theorem commandSdiff_answers_set (cmd : Bytes) {first : Bytes} (hfirst : ¬ HoldsOther s first)
    (rest : List Bytes) : AnswersSet (commandSdiff (cmd :: first :: rest)) s
      (setAt s first \ ⋃ key ∈ rest, setAt s key) := by
  have hmem : ∀ (t : Std.ExtTreeSet Bytes), (∀ a, a ∈ t ↔ a ∈ setAt s first) → ∀ a,
      a ∈ rest.foldl (fun d key => (members (s.value key)).foldl
        (fun d b => if d.contains b then d.erase b else d) d) t ↔
        a ∈ setAt s first \ ⋃ key ∈ rest, setAt s key := by
    intro t ht a
    rw [mem_diffAll, ht a, Set.mem_sdiff, Set.mem_iUnion₂]
    simp
  unfold commandSdiff
  rw [if_neg (by simp)]
  rcases holds_cases s first with ⟨hv, hno⟩ | ⟨v, t, hv, ht, hmember⟩ | hother
  · refine answersSet_toList ((bind_ok (find_value s _)).trans ?_)
      (hmem ∅ fun a => iff_of_false Std.ExtTreeSet.not_mem_empty (hno a))
    have hv' : s.value (arg (cmd :: first :: rest) 1) = none := hv
    rw [hv']
    exact bind_ok (sdiffLoop_eq s _ _)
  · refine answersSet_toList ((bind_ok (find_value s _)).trans ?_)
      (hmem t fun a => (hmember a).symm)
    have hv' : s.value (arg (cmd :: first :: rest) 1) = some v := hv
    simp only [hv', ht]
    exact bind_ok (sdiffLoop_eq s _ _)
  · exact absurd hother hfirst

theorem commandSinter_answers_set (cmd : Bytes) {first : Bytes} {rest : List Bytes}
    (hkeys : ∀ key ∈ first :: rest, ¬ HoldsOther s key) :
    AnswersSet (commandSinter (cmd :: first :: rest)) s (⋂ key ∈ first :: rest, setAt s key) := by
  rw [List.forall_mem_cons] at hkeys
  have hmem : ∀ t t' : Std.ExtTreeSet Bytes, (∀ a, a ∈ t ↔ a ∈ setAt s first) →
      (∀ a, a ∈ t' ↔ a ∈ t ∧ ∀ key ∈ rest, a ∈ setAt s key) → ∀ a,
        a ∈ t' ↔ a ∈ ⋂ key ∈ first :: rest, setAt s key := by
    intro t t' ht ht' a
    rw [ht', ht, Set.mem_iInter₂, List.forall_mem_cons]
  unfold commandSinter
  rw [if_neg (by simp)]
  rcases holds_cases s first with ⟨hv, hno⟩ | ⟨v, t, hv, ht, hmember⟩ | hother
  · obtain ⟨t', hloop, ht'⟩ := sinterLoop_eq rest hkeys.2 ∅
    refine answersSet_toList ((bind_ok (find_value s _)).trans ?_)
      (hmem ∅ t' (fun a => iff_of_false Std.ExtTreeSet.not_mem_empty (hno a)) ht')
    have hv' : s.value (arg (cmd :: first :: rest) 1) = none := hv
    rw [hv']
    exact bind_ok hloop
  · obtain ⟨t', hloop, ht'⟩ := sinterLoop_eq rest hkeys.2 t
    refine answersSet_toList ((bind_ok (find_value s _)).trans ?_)
      (hmem t t' (fun a => (hmember a).symm) ht')
    have hv' : s.value (arg (cmd :: first :: rest) 1) = some v := hv
    simp only [hv', ht]
    exact bind_ok hloop
  · exact absurd hother hkeys.1

end Commands

/-- Over keys that hold sets or are missing, the commands on several sets answer with the
intersection, the union and the difference, whatever the order of the keys they treat alike. -/
theorem set_algebra {s : Store} (cmd : Bytes) {first : Bytes} {rest : List Bytes}
    (hkeys : ∀ key ∈ first :: rest, ∀ v, s.value key = some v → v.data.kind = .set) :
    AnswersSet (commandSinter (cmd :: first :: rest)) s (⋂ key ∈ first :: rest, setAt s key) ∧
    AnswersSet (commandSunion (cmd :: first :: rest)) s (⋃ key ∈ first :: rest, setAt s key) ∧
    AnswersSet (commandSdiff (cmd :: first :: rest)) s
      (setAt s first \ ⋃ key ∈ rest, setAt s key) ∧
    (∀ first' rest', (first :: rest).Perm (first' :: rest') →
      commandSinter (cmd :: first' :: rest') s = commandSinter (cmd :: first :: rest) s ∧
      commandSunion (cmd :: first' :: rest') s = commandSunion (cmd :: first :: rest) s) ∧
    (∀ rest', rest.Perm rest' →
      commandSdiff (cmd :: first :: rest') s = commandSdiff (cmd :: first :: rest) s) := by
  have hother : ∀ key ∈ first :: rest, ¬ HoldsOther s key := by
    rintro key hkey ⟨v, hv, hk⟩
    exact hk (hkeys key hkey v hv)
  have hfirst := hother first List.mem_cons_self
  refine ⟨commandSinter_answers_set cmd hother, commandSunion_answers_set s cmd first rest,
    commandSdiff_answers_set cmd hfirst rest, fun first' rest' hperm => ⟨?_, ?_⟩,
    fun rest' hperm => ?_⟩
  · have hother' : ∀ key ∈ first' :: rest', ¬ HoldsOther s key := fun key hkey =>
      hother key (hperm.mem_iff.2 hkey)
    have h := commandSinter_answers_set cmd hother'
    simp only [← hperm.mem_iff] at h
    exact h.congr (commandSinter_answers_set cmd hother)
  · have h := commandSunion_answers_set s cmd first' rest'
    simp only [← hperm.mem_iff] at h
    exact h.congr (commandSunion_answers_set s cmd first rest)
  · have h := commandSdiff_answers_set cmd hfirst rest'
    simp only [← hperm.mem_iff] at h
    exact h.congr (commandSdiff_answers_set cmd hfirst rest)

/-- Two sets that overlap, and a missing key. -/
theorem set_algebra_overlap : ∃ s, run Server.step {}
      [.command {} 4 [ascii "SADD", ascii "k", ascii "x", ascii "y"],
        .command {} 4 [ascii "SADD", ascii "m", ascii "y", ascii "z"]] = .ok s ∧
    AnswersSet (commandSinter [ascii "SINTER", ascii "k", ascii "m"]) s.store
      (⋂ key ∈ [ascii "k", ascii "m"], setAt s.store key) ∧
    AnswersSet (commandSdiff [ascii "SDIFF", ascii "k", ascii "m", ascii "n"]) s.store
      (setAt s.store (ascii "k") \ ⋃ key ∈ [ascii "m", ascii "n"], setAt s.store key) ∧
    commandSunion [ascii "SUNION", ascii "m", ascii "n", ascii "k"] s.store =
      commandSunion [ascii "SUNION", ascii "k", ascii "m", ascii "n"] s.store := by
  obtain ⟨s, hs, hkeys⟩ : ∃ s, run Server.step {}
      [.command {} 4 [ascii "SADD", ascii "k", ascii "x", ascii "y"],
        .command {} 4 [ascii "SADD", ascii "m", ascii "y", ascii "z"]] = .ok s ∧
      ∀ key ∈ [ascii "k", ascii "m", ascii "n"], ∀ v ∈ s.store.value key, v.data.kind = .set :=
    exists_of_any (by decide +kernel)
  have htwo : ∀ key ∈ [ascii "k", ascii "m"], ∀ v ∈ s.store.value key, v.data.kind = .set :=
    fun key hkey => hkeys key (List.mem_append_left [ascii "n"] hkey)
  obtain ⟨hinter, -⟩ := set_algebra (ascii "SINTER") htwo
  obtain ⟨-, -, hdiff, -⟩ := set_algebra (ascii "SDIFF") hkeys
  obtain ⟨-, -, -, hperm, -⟩ := set_algebra (ascii "SUNION") hkeys
  exact ⟨s, hs, hinter, hdiff, (hperm _ _ (by decide)).2⟩

end DrutaDB
