import Mathlib.Tactic

/-!
# Logs that are compacted when they have doubled

A log is compacted only when it is more than twice as large as the last compaction left it.  Then
all that the compactions write is paid for by what is appended, but for what the last of them
writes (`Paid.steps`).
-/

namespace Doubling

/-- The size of a log and the one after its last compaction, and what was appended and what was
compacted so far. -/
structure Log where
  size : ℕ
  base : ℕ
  appended : ℕ
  compacted : ℕ

inductive Step : Log → Log → Prop
  /-- The log grows by no more than what is appended. -/
  | append {l : Log} {size n : ℕ} (h : size ≤ l.size + n) :
    Step l { l with size := size, appended := l.appended + n }
  | compact {l : Log} (size : ℕ) (h : 2 * l.base < l.size) :
    Step l { l with size := size, base := size, compacted := l.compacted + size }

/-- What the compactions wrote is paid for, and what was appended since pays for the next one. -/
structure Paid (l : Log) : Prop where
  compacted_le : l.compacted ≤ l.base + l.appended
  compacted_add_le : l.compacted + l.size ≤ 2 * l.base + l.appended

variable {l l' : Log}

theorem Paid.step (h : Paid l) (hs : Step l l') : Paid l' := by
  obtain ⟨hle, hadd⟩ := h
  cases hs with
  | append hn => exact ⟨by dsimp only; omega, by dsimp only; omega⟩
  | compact hdouble => exact ⟨by dsimp only; omega, by dsimp only; omega⟩

theorem Paid.steps (h : Paid l) (hs : Relation.ReflTransGen Step l l') : Paid l' := by
  induction hs with
  | refl => exact h
  | tail _ hlast ih => exact ih.step hlast

/-- A log that is not larger than twice what it was after a compaction. -/
theorem paid_start {size base : ℕ} (h : size ≤ 2 * base) : Paid ⟨size, base, 0, 0⟩ :=
  ⟨Nat.zero_le _, by dsimp only; omega⟩

end Doubling
