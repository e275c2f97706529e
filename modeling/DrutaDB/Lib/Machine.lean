import Mathlib.Tactic

/-!
# Machine integers

`size_t` is a natural number below `2 ^ 64` and `int` an integer between `-2 ^ 31` and
`2 ^ 31 - 1`; every operation is the mathematical one followed by the wrap of its width.
-/

namespace Machine

/-- The conversion to a 64-bit `size_t`. -/
def toSize (n : ℤ) : ℕ := (n % 2 ^ 64).toNat

/-- The conversion to a 32-bit `int`. -/
def toInt (n : ℤ) : ℤ := n.bmod (2 ^ 32)

/-- The conversion to a 64-bit `long long`. -/
def toLong (n : ℤ) : ℤ := n.bmod (2 ^ 64)

def addSize (a b : ℕ) : ℕ := toSize (a + b)

def subSize (a b : ℕ) : ℕ := toSize (a - b)

theorem toSize_lt (n : ℤ) : toSize n < 2 ^ 64 := by
  unfold toSize
  omega

theorem toSize_natCast {n : ℕ} (h : n < 2 ^ 64) : toSize n = n := by
  unfold toSize
  omega

theorem addSize_eq {a b : ℕ} (h : a + b < 2 ^ 64) : addSize a b = a + b := by
  unfold addSize toSize
  omega

theorem subSize_eq {a b : ℕ} (hb : b ≤ a) (ha : a < 2 ^ 64) : subSize a b = a - b := by
  unfold subSize toSize
  omega

theorem addSize_lt (a b : ℕ) : addSize a b < 2 ^ 64 := toSize_lt _

theorem subSize_lt (a b : ℕ) : subSize a b < 2 ^ 64 := toSize_lt _

theorem addSize_toSize (a b : ℕ) : addSize (toSize a) b = toSize (a + b : ℕ) := by
  unfold addSize toSize
  omega

theorem subSize_toSize (a b : ℕ) : subSize (toSize (a + b : ℕ)) b = toSize a := by
  unfold subSize toSize
  omega

theorem addSize_toSize_right (a b : ℕ) : addSize a (toSize b) = addSize a b := by
  unfold addSize toSize
  omega

theorem subSize_toSize_right (a b : ℕ) : subSize a (toSize b) = subSize a b := by
  unfold subSize toSize
  omega

/-- One amount of a total is replaced by another. -/
theorem addSize_subSize_toSize {a b x y : ℕ} (h : a + y = b + x) :
    addSize (subSize (toSize a) x) y = toSize b := by
  unfold addSize subSize toSize
  omega

theorem toInt_natCast {n : ℕ} (h : n < 2 ^ 31) : toInt n = n := by
  unfold toInt
  rw [Int.bmod_eq_of_le_mul_two] <;> omega

theorem toInt_eq {n : ℤ} (h : -2 ^ 31 ≤ n) (h' : n < 2 ^ 31) : toInt n = n := by
  unfold toInt
  rw [Int.bmod_eq_of_le_mul_two] <;> omega

/-- The low half of a `size_t`. -/
theorem toInt_toSize (n : ℤ) : toInt (toSize n) = toInt n := by
  have hcast : (toSize n : ℤ) = n % 2 ^ 64 := by
    unfold toSize
    omega
  have hmod : n % 2 ^ 64 % (2 ^ 32 : ℕ) = n % (2 ^ 32 : ℕ) := by omega
  rw [hcast, toInt, ← Int.emod_bmod, hmod, Int.emod_bmod, toInt]

theorem toInt_add (n m : ℤ) : toInt (toInt n + m) = toInt (n + m) := Int.bmod_add_bmod

theorem toInt_le (n : ℕ) : toInt n ≤ n := by
  unfold toInt
  rw [Int.bmod_def]
  split_ifs <;> omega

theorem toInt_lt (n : ℤ) : toInt n < 2 ^ 31 := by
  have hlt := Int.bmod_lt (x := n) (m := 2 ^ 32) (by norm_num)
  unfold toInt
  omega

theorem le_toInt (n : ℤ) : -2 ^ 31 ≤ toInt n := by
  have hle := Int.le_bmod (x := n) (m := 2 ^ 32) (by norm_num)
  unfold toInt
  omega

/-- A count that an `int` cannot hold does not come back from one. -/
theorem toSize_toInt_ne {n : ℕ} (h : 2 ^ 31 ≤ n) (h' : n < 2 ^ 63) : toSize (toInt n) ≠ n := by
  have hlt := toInt_lt n
  have hle := le_toInt n
  unfold toSize
  omega

/-- What fits an `int` comes back from it, and nothing else does. -/
theorem toInt_eq_iff {n : ℤ} : toInt n = n ↔ -2 ^ 31 ≤ n ∧ n < 2 ^ 31 := by
  constructor
  · intro h
    exact h ▸ ⟨le_toInt n, toInt_lt n⟩
  · exact fun h => toInt_eq h.1 h.2

theorem toLong_eq {n : ℤ} (h : -2 ^ 63 ≤ n) (h' : n < 2 ^ 63) : toLong n = n := by
  unfold toLong
  rw [Int.bmod_eq_of_le_mul_two] <;> omega

theorem toLong_eq_iff {n : ℤ} : toLong n = n ↔ -2 ^ 63 ≤ n ∧ n < 2 ^ 63 := by
  constructor
  · intro h
    have hlt := Int.bmod_lt (x := n) (m := 2 ^ 64) (by norm_num)
    have hle := Int.le_bmod (x := n) (m := 2 ^ 64) (by norm_num)
    unfold toLong at h
    omega
  · exact fun h => toLong_eq h.1 h.2

end Machine
