import Mathlib.Data.Nat.Sqrt
import Mathlib.Tactic

/-! Newton's iteration for square roots with truncated divisions. Above the square root it
decreases, and it never goes below. -/

namespace Tlpi.Lib

def newton (n x : ℕ) : ℕ := (n / x + x) / 2

variable {n x : ℕ}

/-- `(2 * r - x) * x` is at most `r * r`. -/
theorem sqrt_le_newton (hx : 0 < x) : n.sqrt ≤ newton n x := by
  have hsquare : n.sqrt * n.sqrt ≤ n := Nat.sqrt_le n
  have hdiv : 2 * n.sqrt - x ≤ n / x := by
    rw [Nat.le_div_iff_mul_le hx]
    refine le_trans ?_ hsquare
    rcases le_total (2 * n.sqrt) x with hle | hle
    · rw [Nat.sub_eq_zero_of_le hle, zero_mul]
      exact Nat.zero_le _
    · zify [hle]
      nlinarith only [sq_nonneg ((n.sqrt : ℤ) - x)]
  rw [newton, Nat.le_div_iff_mul_le two_pos]
  omega

theorem newton_lt (h : n.sqrt < x) : newton n x < x := by
  have hlt : n / x < x := Nat.div_lt_of_lt_mul (Nat.sqrt_lt.mp h)
  unfold newton
  omega

theorem newton_sqrt_le (hn : 0 < n) : newton n n.sqrt ≤ n.sqrt + 1 := by
  have hpos : 0 < n.sqrt := Nat.sqrt_pos.mpr hn
  have hdiv : n / n.sqrt ≤ n.sqrt + 2 := by
    rw [Nat.div_le_iff_le_mul_add_pred hpos]
    have hbound := Nat.sqrt_le_add n
    nlinarith only [hbound]
  unfold newton
  omega

/-- The iteration goes back from the number above the square root. -/
theorem newton_succ_sqrt (n : ℕ) : newton n (n.sqrt + 1) = n.sqrt := by
  have hlt : newton n (n.sqrt + 1) < n.sqrt + 1 := newton_lt (Nat.lt_succ_self n.sqrt)
  exact le_antisymm (Nat.le_of_lt_succ hlt) (sqrt_le_newton (Nat.succ_pos _))

end Tlpi.Lib
