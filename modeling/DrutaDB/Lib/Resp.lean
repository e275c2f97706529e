import DrutaDB.Lib.Decimal
import DrutaDB.Lib.PrefixFree

/-!
# Values of the RESP protocol

The text of one value: a simple string, an error, an integer, a bulk string, or an array with as
many values as its header says.  It tells where it ends (`prefixFree`).
-/

namespace Resp

open Decimal

def lineEnd : Bytes := [13, 10]

/-- Text that fits on one line. -/
def Line (l : Bytes) : Prop := 13 ∉ l ∧ 10 ∉ l

instance (l : Bytes) : Decidable (Line l) := inferInstanceAs (Decidable (_ ∧ _))

/-- The text of exactly one value. -/
inductive IsValue : Bytes → Prop
  | simple {l} (h : Line l) : IsValue (byte '+' :: l ++ lineEnd)
  | error {l} (h : Line l) : IsValue (byte '-' :: l ++ lineEnd)
  | integer (n : ℤ) : IsValue (byte ':' :: toDecimalInt n ++ lineEnd)
  | bulk (s : Bytes) : IsValue (byte '$' :: toDecimal s.length ++ lineEnd ++ s ++ lineEnd)
  | nil : IsValue (ascii "$-1" ++ lineEnd)
  | array {vs : List Bytes} (h : ∀ v ∈ vs, IsValue v) :
    IsValue (byte '*' :: toDecimal vs.length ++ lineEnd ++ vs.flatten)

variable {b l : Bytes} {c : UInt8}

theorem IsValue.ne_nil (h : IsValue b) : b ≠ [] := by
  cases h <;> simp [ascii]

/-- A simple string or an error is one line. -/
theorem IsValue.line (h : IsValue b) (hc : b.head? = some (byte '+') ∨ b.head? = some (byte '-')) :
    ∃ l, Line l ∧ b.tail = l ++ lineEnd := by
  cases h with
  | simple hl => exact ⟨_, hl, rfl⟩
  | error hl => exact ⟨_, hl, rfl⟩
  | integer n => exact absurd (show some (byte ':') = _ ∨ some (byte ':') = _ from hc) (by decide)
  | bulk s => exact absurd (show some (byte '$') = _ ∨ some (byte '$') = _ from hc) (by decide)
  | nil => exact absurd (show some (byte '$') = _ ∨ some (byte '$') = _ from hc) (by decide)
  | array hv => exact absurd (show some (byte '*') = _ ∨ some (byte '*') = _ from hc) (by decide)

theorem IsValue.getLast (h : IsValue b) (hc : b.head? = some (byte '+') ∨ b.head? = some (byte '-')) :
    b.getLast? = some 10 := by
  obtain ⟨l, -, hl⟩ := h.line hc
  rcases b with _ | ⟨c, b⟩
  · simp at hc
  · obtain rfl : b = l ++ lineEnd := hl
    rw [← List.cons_append, List.getLast?_append]
    rfl

/-- A line is not cut short, and does not go on after its end. -/
theorem IsValue.line_iff (hc : c = byte '+' ∨ c = byte '-') :
    IsValue (c :: l ++ lineEnd) ↔ Line l := by
  constructor
  · intro h
    obtain ⟨m, hm, heq⟩ := h.line (by rcases hc with rfl | rfl <;> simp)
    rw [List.cons_append, List.tail_cons] at heq
    rwa [List.append_cancel_right heq]
  · rintro h
    rcases hc with rfl | rfl
    · exact .simple h
    · exact .error h

/-- The array of the values that `f` makes of the elements. -/
theorem IsValue.map {α : Type*} {f : α → Bytes} (as : List α) (h : ∀ a ∈ as, IsValue (f a)) :
    IsValue (byte '*' :: toDecimal as.length ++ lineEnd ++ as.flatMap f) := by
  have harray := @IsValue.array (as.map f) (List.forall_mem_map.2 h)
  rwa [List.length_map, ← List.flatMap_def] at harray

/-! ## Where a value ends -/

theorem line_inj : ∀ {l l' x y : Bytes}, 13 ∉ l → 13 ∉ l' → l ++ lineEnd ++ x = l' ++ lineEnd ++ y →
    l = l' ∧ x = y
  | [], [], x, y, _, _, h => ⟨rfl, List.append_cancel_left h⟩
  | [], c :: l', x, y, _, hl', h => by
    have hc : (13 : UInt8) = c := (List.cons.inj h).1
    exact absurd (hc ▸ List.mem_cons_self) hl'
  | c :: l, [], x, y, hl, _, h => by
    have hc : c = 13 := (List.cons.inj h).1
    exact absurd (hc ▸ List.mem_cons_self) hl
  | c :: l, c' :: l', x, y, hl, hl', h => by
    obtain ⟨rfl, htail⟩ := List.cons.inj h
    obtain ⟨rfl, rfl⟩ := line_inj (fun hc => hl (List.mem_cons_of_mem _ hc))
      (fun hc => hl' (List.mem_cons_of_mem _ hc)) htail
    exact ⟨rfl, rfl⟩

theorem not_mem_toDecimal {n : ℕ} (hc : isDigit c = false) : c ∉ toDecimal n := fun h => by
  rw [isDigit_of_mem_toDecimal h] at hc
  cases hc

theorem not_mem_toDecimalInt (n : ℤ) : 13 ∉ toDecimalInt n := by
  unfold toDecimalInt
  split_ifs
  · exact List.not_mem_cons_of_ne_of_not_mem (by decide) (not_mem_toDecimal rfl)
  · exact not_mem_toDecimal rfl

/-- What follows the first line of a value whose elements are such. -/
inductive Rest (P : Bytes → Prop) : UInt8 → Bytes → Bytes → Prop
  | line {d m} (hd : d ≠ byte '$' ∧ d ≠ byte '*') : Rest P d m []
  | bulk (s : Bytes) : Rest P (byte '$') (toDecimal s.length) (s ++ lineEnd)
  | nil : Rest P (byte '$') (ascii "-1") []
  | array {vs : List Bytes} (h : ∀ v ∈ vs, P v) : Rest P (byte '*') (toDecimal vs.length) vs.flatten

/-- A value is a line and what its first line says. -/
theorem IsValue.rest (h : IsValue b) :
    ∃ c l r, b = c :: l ++ lineEnd ++ r ∧ 13 ∉ l ∧ Rest IsValue c l r := by
  cases h with
  | simple hl => exact ⟨_, _, [], (List.append_nil _).symm, hl.1, .line (by decide)⟩
  | error hl => exact ⟨_, _, [], (List.append_nil _).symm, hl.1, .line (by decide)⟩
  | integer n =>
    exact ⟨_, _, [], (List.append_nil _).symm, not_mem_toDecimalInt n, .line (by decide)⟩
  | bulk s => exact ⟨_, _, _, List.append_assoc _ _ _, not_mem_toDecimal rfl, .bulk s⟩
  | nil => exact ⟨_, _, [], rfl, by decide, .nil⟩
  | array hv => exact ⟨_, _, _, rfl, not_mem_toDecimal rfl, .array hv⟩

/-- What the first line says is told from nothing but that line. -/
theorem Rest.eq {P : Bytes → Prop} {c : UInt8} {l r r' x y : Bytes}
    (hP : ∀ v, P v → ∀ b, IsValue b → ∀ x y, v ++ x = b ++ y → v = b) (h : Rest P c l r)
    (h' : Rest IsValue c l r') (heq : r ++ x = r' ++ y) : r = r' := by
  have hnil : ∀ n : ℕ, toDecimal n ≠ ascii "-1" := fun n hn =>
    not_mem_toDecimal (n := n) (c := 45) rfl (hn ▸ by decide)
  have hinj : ∀ {n m : ℕ}, toDecimal n = toDecimal m → n = m := fun {n m} hnm => by
    rw [← digitsValue_toDecimal n, hnm, digitsValue_toDecimal]
  generalize hl : l = l' at h'
  cases h with
  | line hc =>
    cases h' with
    | line _ => rfl
    | bulk _ => exact absurd rfl hc.1
    | nil => exact absurd rfl hc.1
    | array _ => exact absurd rfl hc.2
  | bulk s =>
    generalize hd : byte '$' = d at h'
    cases h' with
    | line hc => exact absurd hd.symm hc.1
    | bulk s' => exact (List.append_inj heq (by simp [hinj hl])).1
    | nil => exact absurd hl (hnil _)
    | array _ => exact absurd hd (by decide)
  | nil =>
    generalize hd : byte '$' = d at h'
    cases h' with
    | line hc => exact absurd hd.symm hc.1
    | bulk s' => exact absurd hl.symm (hnil _)
    | nil => rfl
    | array _ => exact absurd hd (by decide)
  | @array vs hv =>
    generalize hd : byte '*' = d at h'
    cases h' with
    | line hc => exact absurd hd.symm hc.2
    | bulk _ => exact absurd hd (by decide)
    | nil => exact absurd hd (by decide)
    | @array ws hw =>
      rw [InformationTheory.flatten_inj_of_length (fun v hvs w hws => hP v (hv v hvs) w (hw w hws))
        (hinj hl) heq]

/-- Where a value starts, another value that starts there is the same. -/
theorem Rest.value_eq {P : Bytes → Prop} {r x y : Bytes}
    (hP : ∀ v, P v → ∀ b, IsValue b → ∀ x y, v ++ x = b ++ y → v = b) (hl : 13 ∉ l)
    (h : Rest P c l r) (hb : IsValue b) (heq : c :: l ++ lineEnd ++ r ++ x = b ++ y) :
    c :: l ++ lineEnd ++ r = b := by
  obtain ⟨c', l', r', rfl, hl', h'⟩ := hb.rest
  simp only [List.cons_append] at heq ⊢
  obtain ⟨rfl, htail⟩ := List.cons.inj heq
  rw [List.append_assoc, List.append_assoc (l' ++ lineEnd)] at htail
  obtain ⟨rfl, hrest⟩ := line_inj hl hl' htail
  rw [h.eq hP h' hrest]

theorem IsValue.eq_of_append {a : Bytes} (ha : IsValue a) :
    ∀ b, IsValue b → ∀ x y, a ++ x = b ++ y → a = b := by
  induction ha with
  | simple hl =>
    intro b hb x y heq
    rw [← List.append_nil (_ ++ lineEnd)] at heq ⊢
    exact Rest.value_eq (P := fun _ => False) (fun _ h => h.elim) hl.1 (.line (by decide)) hb heq
  | error hl =>
    intro b hb x y heq
    rw [← List.append_nil (_ ++ lineEnd)] at heq ⊢
    exact Rest.value_eq (P := fun _ => False) (fun _ h => h.elim) hl.1 (.line (by decide)) hb heq
  | integer n =>
    intro b hb x y heq
    rw [← List.append_nil (_ ++ lineEnd)] at heq ⊢
    exact Rest.value_eq (P := fun _ => False) (fun _ h => h.elim) (not_mem_toDecimalInt n)
      (.line (by decide)) hb heq
  | bulk s =>
    intro b hb x y heq
    rw [List.append_assoc (_ ++ lineEnd)] at heq ⊢
    exact Rest.value_eq (P := fun _ => False) (fun _ h => h.elim) (not_mem_toDecimal rfl) (.bulk s)
      hb heq
  | nil =>
    intro b hb x y heq
    exact Rest.value_eq (P := fun _ => False) (l := ascii "-1") (r := []) (fun _ h => h.elim)
      (by decide) .nil hb heq
  | array hv ih =>
    intro b hb x y heq
    exact Rest.value_eq (fun _ h => h) (not_mem_toDecimal rfl) (.array ih) hb heq

/-- No value goes on where another one ends. -/
theorem prefixFree : InformationTheory.PrefixFree {b | IsValue b} :=
  fun _ ha b hb x y => ha.eq_of_append b hb x y

end Resp
