import Mathlib.Data.List.TakeWhile
import Mathlib.Tactic

/-!
# Decimal numbers in byte strings

`std::to_string`, `strtol` in base ten, and `std::stoi` and `std::stoll`, which throw where
`strtol` converts nothing or the number does not fit.  A printed number is read back
(`stoi_toDecimal`, `stoll_toDecimalInt`).
-/

/-- A `std::string`: any bytes, NUL included. -/
abbrev Bytes := List UInt8

namespace Decimal

/-- The exceptions of the standard library. -/
inductive StdException
  | invalidArgument
  | outOfRange
  | lengthError
  deriving DecidableEq, Repr

def byte (c : Char) : UInt8 := UInt8.ofNat c.toNat

/-- The bytes of an ASCII literal. -/
def ascii (s : String) : Bytes := s.toList.map byte

def isSpace (c : UInt8) : Bool := c = 32 || (9 ≤ c && c ≤ 13)

def isDigit (c : UInt8) : Bool := 48 ≤ c && c ≤ 57

/-- `std::to_string` of an unsigned number. -/
def toDecimal (n : ℕ) : Bytes := (Nat.toDigits 10 n).map byte

/-- `std::to_string` of a signed number. -/
def toDecimalInt (n : ℤ) : Bytes :=
  if n < 0 then 45 :: toDecimal n.natAbs else toDecimal n.natAbs

def digitsValue (ds : Bytes) : ℕ := ds.foldl (fun n c => 10 * n + (c.toNat - 48)) 0

/-- A sign, if there is one, and what follows it. -/
def takeSign : Bytes → Bool × Bytes
  | 45 :: s => (true, s)
  | 43 :: s => (false, s)
  | s => (false, s)

/-- `strtol` in base ten without its range check, or `none` where it converts nothing.  What
follows the digits is ignored. -/
def strtol (s : Bytes) : Option ℤ :=
  let (negative, t) := takeSign (s.dropWhile isSpace)
  match t.takeWhile isDigit with
  | [] => none
  | ds => some (if negative then -(digitsValue ds : ℤ) else digitsValue ds)

/-- The number of `strtol`, or the exception thrown where there is none of `w` bits. -/
def strto (w : ℕ) (s : Bytes) : Except StdException ℤ :=
  match strtol s with
  | none => .error .invalidArgument
  | some n => if -2 ^ (w - 1) ≤ n ∧ n < 2 ^ (w - 1) then .ok n else .error .outOfRange

/-- `std::stoi` -/
def stoi (s : Bytes) : Except StdException ℤ := strto 32 s

/-- `std::stoll` -/
def stoll (s : Bytes) : Except StdException ℤ := strto 64 s

theorem isDigit_byte {c : Char} (h : c.isDigit) : isDigit (byte c) := by
  obtain ⟨h1, h2⟩ : 48 ≤ c.toNat ∧ c.toNat ≤ 57 := by
    simp only [Char.isDigit, Bool.and_eq_true, decide_eq_true_eq, ge_iff_le] at h
    exact h
  simp only [isDigit, byte, Bool.and_eq_true, decide_eq_true_eq, UInt8.le_iff_toNat_le,
    UInt8.toNat_ofNat']
  exact ⟨by simp; omega, by simp; omega⟩

theorem isDigit_of_mem_toDecimal {n : ℕ} {c : UInt8} (h : c ∈ toDecimal n) : isDigit c := by
  obtain ⟨d, hd, rfl⟩ := List.mem_map.1 h
  exact isDigit_byte (Nat.isDigit_of_mem_toDigits (by norm_num) (by norm_num) hd)

theorem toDecimal_ne_nil (n : ℕ) : toDecimal n ≠ [] := by
  simp [toDecimal, Nat.toDigits_ne_nil]

theorem digitsValue_toDecimal (n : ℕ) : digitsValue (toDecimal n) = n := by
  have hfold : ∀ (l : List Char) (a : ℕ), (∀ c ∈ l, c.isDigit) →
      (l.map byte).foldl (fun n c => 10 * n + (c.toNat - 48)) a = Nat.ofDigitChars 10 l a := by
    intro l
    induction l with
    | nil => intro a _; simp
    | cons c l ih =>
      intro a hl
      have hc : (byte c).toNat = c.toNat := by
        have := hl c List.mem_cons_self
        simp only [Char.isDigit, Bool.and_eq_true, decide_eq_true_eq, ge_iff_le] at this
        have h2 : c.toNat ≤ 57 := this.2
        simp only [byte, UInt8.toNat_ofNat']
        omega
      rw [List.map_cons, List.foldl_cons, Nat.ofDigitChars_cons, hc,
        ih _ fun d hd => hl d (List.mem_cons_of_mem _ hd)]
      rfl
  unfold digitsValue toDecimal
  rw [hfold _ _ fun c hc => Nat.isDigit_of_mem_toDigits (by norm_num) (by norm_num) hc,
    Nat.ofDigitChars_ten_toDigits]

theorem not_isSpace_of_isDigit {c : UInt8} (h : isDigit c) : isSpace c = false := by
  simp only [isDigit, Bool.and_eq_true, decide_eq_true_eq, UInt8.le_iff_toNat_le] at h
  have h1 : 48 ≤ c.toNat := h.1
  simp only [isSpace, Bool.or_eq_false_iff, decide_eq_false_iff_not, Bool.and_eq_false_iff,
    UInt8.le_iff_toNat_le]
  refine ⟨fun hc => ?_, .inr ?_⟩
  · subst hc
    simp at h1
  · have : (13 : UInt8).toNat = 13 := rfl
    omega

theorem takeSign_of_isDigit {c : UInt8} (h : isDigit c) (s : Bytes) :
    takeSign (c :: s) = (false, c :: s) := by
  unfold takeSign
  split
  · simp_all [isDigit]
  · simp_all [isDigit]
  · rfl

theorem takeWhile_toDecimal (n : ℕ) : (toDecimal n).takeWhile isDigit = toDecimal n :=
  List.takeWhile_eq_self_iff.2 fun _ hc => isDigit_of_mem_toDecimal hc

theorem strtol_toDecimal (n : ℕ) : strtol (toDecimal n) = some (n : ℤ) := by
  rcases h : toDecimal n with _ | ⟨c, s⟩
  · exact absurd h (toDecimal_ne_nil n)
  have hc : isDigit c := isDigit_of_mem_toDecimal (n := n) (by rw [h]; exact List.mem_cons_self)
  have hw := takeWhile_toDecimal n
  have hv := digitsValue_toDecimal n
  rw [h] at hw hv
  simp only [strtol, List.dropWhile_cons, not_isSpace_of_isDigit hc, Bool.false_eq_true,
    if_false, takeSign_of_isDigit hc, hw, hv]

theorem strtol_neg_toDecimal (n : ℕ) : strtol (45 :: toDecimal n) = some (-(n : ℤ)) := by
  rcases h : toDecimal n with _ | ⟨c, s⟩
  · exact absurd h (toDecimal_ne_nil n)
  have hw := takeWhile_toDecimal n
  have hv := digitsValue_toDecimal n
  rw [h] at hw hv
  have hs : isSpace 45 = false := by decide
  simp only [strtol, List.dropWhile_cons, hs, Bool.false_eq_true, if_false, takeSign, hw, hv,
    if_true]

theorem strtol_toDecimalInt (n : ℤ) : strtol (toDecimalInt n) = some n := by
  unfold toDecimalInt
  split_ifs with hn
  · rw [strtol_neg_toDecimal]
    congr 1
    omega
  · rw [strtol_toDecimal]
    congr 1
    omega

theorem stoi_toDecimal {n : ℕ} (h : n < 2 ^ 31) : stoi (toDecimal n) = .ok (n : ℤ) := by
  unfold stoi strto
  rw [strtol_toDecimal]
  simp only
  rw [if_pos]
  norm_num
  omega

theorem stoll_toDecimalInt {n : ℤ} (h : -2 ^ 63 ≤ n) (h' : n < 2 ^ 63) :
    stoll (toDecimalInt n) = .ok n := by
  unfold stoll strto
  rw [strtol_toDecimalInt]
  simp only
  rw [if_pos]
  norm_num
  omega

end Decimal
