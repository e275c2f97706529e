import Mathlib.Tactic

/-!
# Deeds that wait for a period

A look at the clock finds that a period has passed since the last time it did (`Elapsed`), and
marks the time (`remark`).  So what is left undone is not older than a period
(`lt_remark`), and in a stretch of time there are not many more deeds than there are periods
(`Spaced.le`).
-/

namespace Throttle

variable {period a b started now : ℤ} {mark : Option ℤ} {n k : ℕ}

/-- A period has passed since the mark, or since the start where nothing is marked yet. -/
def Elapsed (period : ℤ) (mark : Option ℤ) (started now : ℤ) : Prop :=
  period ≤ now - mark.getD started

instance : Decidable (Elapsed period mark started now) := inferInstanceAs (Decidable (_ ≤ _))

/-- What is marked after a look at the clock. -/
def remark (period : ℤ) (mark : Option ℤ) (started now : ℤ) : ℤ :=
  if Elapsed period mark started now then now else mark.getD started

theorem remark_of_elapsed (h : Elapsed period mark started now) :
    remark period mark started now = now :=
  if_pos h

theorem remark_of_not_elapsed (h : ¬ Elapsed period mark started now) :
    remark period mark started now = mark.getD started := if_neg h

/-- Less than a period has passed since the mark. -/
theorem lt_remark (hp : 0 < period) : now < remark period mark started now + period := by
  by_cases h : Elapsed period mark started now
  · rw [remark_of_elapsed h]
    omega
  · rw [remark_of_not_elapsed h]
    unfold Elapsed at h
    omega

/-- The deeds since `a`, of which the last one is not done after what is marked; nothing is marked
that lies after `b`. -/
def Spaced (period a b : ℤ) (n : ℕ) (mark : Option ℤ) : Prop :=
  n = 0 ∨ ∃ t, mark = some t ∧ a + (n - 1) * period ≤ t ∧ t ≤ b

theorem spaced_zero (period a b : ℤ) (mark : Option ℤ) : Spaced period a b 0 mark := .inl rfl

/-- A look at the clock, at which something is done only when a period has passed. -/
theorem Spaced.look (h : Spaced period a b n mark) (hp : 0 < period) (ha : a ≤ now) (hb : now ≤ b)
    (hk : k = 0 ∨ k = 1 ∧ Elapsed period mark started now) :
    Spaced period a b (n + k) (some (remark period mark started now)) := by
  by_cases hpassed : Elapsed period mark started now
  · rw [remark_of_elapsed hpassed]
    rcases h with rfl | ⟨t, rfl, hat, -⟩
    · rcases hk with rfl | ⟨rfl, -⟩
      · exact .inl rfl
      · exact .inr ⟨now, rfl, by simpa using ha, hb⟩
    · have hpast : t + period ≤ now := by
        unfold Elapsed at hpassed
        simp only [Option.getD_some] at hpassed
        omega
      refine .inr ⟨now, rfl, ?_, hb⟩
      rcases hk with rfl | ⟨rfl, -⟩
      · rw [Nat.add_zero]
        omega
      · push_cast
        linarith
  · obtain rfl : k = 0 := hk.resolve_right fun hk => hpassed hk.2
    rw [remark_of_not_elapsed hpassed]
    rcases h with rfl | ⟨t, rfl, hat, htb⟩
    · exact .inl rfl
    · exact .inr ⟨t, rfl, hat, htb⟩

/-- One deed is done at once, and each of the others after a period. -/
theorem Spaced.le (h : Spaced period a b n mark) (hp : 0 < period) (hab : a ≤ b) :
    (n - 1) * period ≤ b - a := by
  rcases h with rfl | ⟨t, -, hat, htb⟩
  · push_cast
    linarith
  · linarith

end Throttle
