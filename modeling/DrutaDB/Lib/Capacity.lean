import DrutaDB.Lib.Decimal

/-!
# Strings with a capacity

A `std::string` as libstdc++ keeps it: its bytes and the capacity of the buffer they are in.
Fifteen bytes fit in the object itself, and a capacity of fifteen means that they do.  An
assignment keeps or changes the target's buffer, so the capacity depends on the string's past.
-/

namespace Capacity

/-- The capacity of a freshly copied string. -/
def copyCapacity (s : Bytes) : ℕ := max 15 s.length

theorem copyCapacity_nil_le (s : Bytes) : copyCapacity [] ≤ copyCapacity s :=
  max_le (le_max_left _ _) ((Nat.zero_le _).trans (le_max_left _ _))

/-- A string and the capacity of its buffer. -/
structure CString where
  bytes : Bytes
  capacity : ℕ
  fits : copyCapacity bytes ≤ capacity
  deriving DecidableEq, Repr

namespace CString

theorem nil_fits (s : CString) : copyCapacity [] ≤ s.capacity :=
  (copyCapacity_nil_le s.bytes).trans s.fits

def copy (s : Bytes) : CString := ⟨s, copyCapacity s, le_rfl⟩

/-- The default-constructed string. -/
def empty : CString := ⟨[], 15, le_rfl⟩

/-- The capacity that copy assignment of these bytes leaves a string of this one. -/
def assignCapacity (capacity : ℕ) (s : Bytes) : ℕ :=
  if s.length ≤ capacity then capacity else max s.length (2 * capacity)

theorem assign_fits (t : CString) (s : Bytes) : copyCapacity s ≤ assignCapacity t.capacity s := by
  have h : 15 ≤ t.capacity := t.nil_fits
  unfold copyCapacity assignCapacity
  split_ifs <;> omega

/-- Copy assignment keeps the target's buffer where the bytes fit, and otherwise takes one at
least twice as large. -/
def assign (t : CString) (s : Bytes) : CString := ⟨s, assignCapacity t.capacity s, t.assign_fits s⟩

theorem move_fits (t : CString) {s : CString} (h : s.capacity ≤ 15) :
    copyCapacity s.bytes ≤ t.capacity :=
  (s.fits.trans h).trans t.nil_fits

/-- Move assignment: the target and the source after it.  Bytes inside the source object are
copied into the target's buffer; a heap buffer changes hands, and the source is left with the
target's. -/
def moveAssign (t s : CString) : CString × CString :=
  if h : s.capacity ≤ 15 then
    (⟨s.bytes, t.capacity, t.move_fits h⟩, ⟨[], s.capacity, s.nil_fits⟩)
  else (s, ⟨[], t.capacity, t.nil_fits⟩)

@[simp]
theorem copy_bytes (s : Bytes) : (copy s).bytes = s := rfl

@[simp]
theorem copy_capacity (s : Bytes) : (copy s).capacity = copyCapacity s := rfl

@[simp]
theorem assign_bytes (t : CString) (s : Bytes) : (t.assign s).bytes = s := rfl

@[simp]
theorem moveAssign_bytes (t s : CString) : (t.moveAssign s).1.bytes = s.bytes := by
  unfold moveAssign
  split_ifs <;> rfl

end CString

section Shift

variable {α : Type*} (move : α → α → α × α)

/-- What `vector::erase` leaves of an erased element and those after it: each later element is
move-assigned one place down, and the last place is destroyed. -/
def shiftDown : α → List α → List α
  | _, [] => []
  | t, s :: rest => (move t s).1 :: shiftDown (move t s).2 rest

theorem shiftDown_map {β : Type*} {f : α → β} (hf : ∀ t s, f (move t s).1 = f s) :
    ∀ (t : α) (rest : List α), (shiftDown move t rest).map f = rest.map f
  | _, [] => rfl
  | t, s :: rest => by
    rw [shiftDown, List.map_cons, hf, shiftDown_map hf, List.map_cons]

end Shift

end Capacity
