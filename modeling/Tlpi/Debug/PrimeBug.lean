import Tlpi.Lib.CInt
import Tlpi.Lib.Newton

/-! The square root of `debug/prime_bug.c`. Its iteration ends at a fixed point or when it
alternates between two numbers. -/

namespace Tlpi.Debug.PrimeBug
open Lib

/-- The new value of `newX`. -/
def nextX (num X : ℤ) : Except CInt.Fault ℤ := do
  let q ← CInt.div num X
  let sum ← CInt.add q X
  CInt.div sum 2

/-- The loop of `sqroot()`; `none` when `fuel` rounds are not enough. -/
def sqrootLoop (num : ℤ) : ℕ → ℤ → ℤ → Option (Except CInt.Fault ℤ)
  | 0, _, _ => none
  | fuel + 1, oldX, X =>
    match nextX num X with
    | .error fault => some (.error fault)
    | .ok newX =>
      if newX = X ∨ newX = oldX then some (.ok (if newX < X then newX else X))
      else sqrootLoop num fuel X newX

def sqroot (fuel : ℕ) (num : ℤ) : Option (Except CInt.Fault ℤ) :=
  match CInt.div num 2 with
  | .error fault => some (.error fault)
  | .ok X => sqrootLoop num fuel 0 X

/-! ## One round -/

section Round
variable {num X : ℕ} (hnum : 2 ≤ num) (hmax : (num : ℤ) ≤ INT_MAX) (hroot : num.sqrt ≤ X)
  (hX : X ≤ num / 2 + 1)
include hnum

theorem sqrt_le_half : num.sqrt ≤ num / 2 := by
  rw [Nat.le_div_iff_mul_le two_pos]
  have hsquare := Nat.sqrt_le num
  rcases Nat.lt_or_ge num.sqrt 2 with hlt | hge
  · omega
  · exact le_trans (Nat.mul_le_mul_left _ hge) hsquare

theorem sqrt_pos_of_two_le : 0 < num.sqrt := Nat.sqrt_pos.mpr (by omega)

include hmax hroot hX

/-- The number 1 is only reached below 4, and the other ones are at least 2. -/
theorem sum_le : ((num / X + X : ℕ) : ℤ) ≤ INT_MAX := by
  have hpos := sqrt_pos_of_two_le hnum
  unfold INT_MAX at hmax ⊢
  rcases Nat.lt_or_ge X 2 with hlt | hge
  · have hsmall : num < 2 * 2 := Nat.sqrt_lt.mp (lt_of_le_of_lt hroot hlt)
    obtain rfl : X = 1 := by omega
    rw [Nat.div_one]
    omega
  · have hdiv : num / X ≤ num / 2 := Nat.div_le_div_left hge two_pos
    omega

theorem nextX_eq : nextX num X = .ok (newton num X : ℤ) := by
  have hpos := sqrt_pos_of_two_le hnum
  have hsum := sum_le hnum hmax hroot hX
  have htwo : (2 : ℤ) = ((2 : ℕ) : ℤ) := rfl
  rw [nextX, CInt.div_natCast hmax (by omega)]
  show (CInt.add _ _).bind _ = _
  rw [CInt.add_natCast hsum]
  show CInt.div _ _ = _
  rw [htwo, CInt.div_natCast hsum two_ne_zero]
  rfl

end Round

section Loop
variable {num : ℕ} (hnum : 2 ≤ num) (hmax : (num : ℤ) ≤ INT_MAX)
include hnum hmax

theorem sqrootLoop_of_stop {X oldX : ℕ} (hroot : num.sqrt ≤ X) (hX : X ≤ num / 2 + 1)
    (hstop : newton num X = X ∨ newton num X = oldX) (fuel : ℕ) :
    sqrootLoop num (fuel + 1) oldX X = some (.ok (min (newton num X) X : ℕ)) := by
  rw [sqrootLoop, nextX_eq hnum hmax hroot hX]
  have hcond : (newton num X : ℤ) = X ∨ (newton num X : ℤ) = oldX := by exact_mod_cast hstop
  simp only [if_pos hcond]
  congr 2
  rcases Nat.lt_or_ge (newton num X) X with hlt | hge
  · rw [if_pos (by exact_mod_cast hlt), min_eq_left hlt.le]
  · rw [if_neg (by exact_mod_cast hge.not_gt), min_eq_right hge]

theorem sqrootLoop_of_go {X oldX : ℕ} (hroot : num.sqrt ≤ X) (hX : X ≤ num / 2 + 1)
    (hgo : ¬ (newton num X = X ∨ newton num X = oldX)) (fuel : ℕ) :
    sqrootLoop num (fuel + 1) oldX X = sqrootLoop num fuel X (newton num X) := by
  rw [sqrootLoop, nextX_eq hnum hmax hroot hX]
  have hcond : ¬ ((newton num X : ℤ) = X ∨ (newton num X : ℤ) = oldX) := by exact_mod_cast hgo
  simp only [if_neg hcond]

/-- At the square root the iteration stops, or goes to the next number and comes back. -/
theorem sqrootLoop_root (oldX fuel : ℕ) :
    sqrootLoop num (fuel + 2) oldX num.sqrt = some (.ok (num.sqrt : ℤ)) := by
  have hhalf := sqrt_le_half hnum
  have hpos := sqrt_pos_of_two_le hnum
  have hge := @sqrt_le_newton num num.sqrt hpos
  have hle := newton_sqrt_le (show 0 < num by omega)
  by_cases hstop : newton num num.sqrt = num.sqrt ∨ newton num num.sqrt = oldX
  · rw [sqrootLoop_of_stop hnum hmax le_rfl (by omega) hstop, min_eq_right hge]
  · have hnext : newton num num.sqrt = num.sqrt + 1 := by omega
    have hback := newton_succ_sqrt num
    rw [sqrootLoop_of_go hnum hmax le_rfl (by omega) hstop, hnext,
      sqrootLoop_of_stop hnum hmax (Nat.le_succ _) (by omega) (.inr hback), hback,
      min_eq_left (Nat.le_succ _)]

/-- Above the square root the numbers decrease, so that none of them comes again. -/
theorem sqrootLoop_eq {X oldX : ℕ} (hroot : num.sqrt ≤ X) (hX : X ≤ num / 2)
    (hold : oldX = 0 ∨ X < oldX) {fuel : ℕ} (hfuel : X + 2 ≤ fuel + num.sqrt) :
    sqrootLoop num fuel oldX X = some (.ok (num.sqrt : ℤ)) := by
  induction X using Nat.strong_induction_on generalizing oldX fuel with
  | _ X ih =>
    rcases hroot.eq_or_lt with rfl | hlt
    · obtain ⟨fuel, rfl⟩ := Nat.exists_eq_add_of_le' (show 2 ≤ fuel by omega)
      exact sqrootLoop_root hnum hmax oldX fuel
    · have hpos := sqrt_pos_of_two_le hnum
      have hnext := newton_lt hlt
      have hge := @sqrt_le_newton num X (by omega)
      obtain ⟨fuel, rfl⟩ := Nat.exists_eq_add_of_le' (show 1 ≤ fuel by omega)
      rw [sqrootLoop_of_go hnum hmax hroot (by omega) (by omega)]
      exact ih _ hnext hge (by omega) (.inr hnext) (by omega)

end Loop

/-- The result is the integer square root; `num / 2 + 2` rounds are always enough. -/
theorem sqroot_exact (num : ℤ) (hnum : 2 ≤ num) (hmax : num ≤ INT_MAX) :
    ∃ rounds r, (∀ fuel ≥ rounds, sqroot fuel num = some (.ok r)) ∧
      r * r ≤ num ∧ num < (r + 1) * (r + 1) := by
  obtain ⟨num, rfl⟩ := Int.eq_ofNat_of_zero_le (show 0 ≤ num by omega)
  have htwo : 2 ≤ num := by exact_mod_cast hnum
  refine ⟨num / 2 + 2, num.sqrt, ?_, ?_, ?_⟩
  · intro fuel hfuel
    have hhalf : CInt.div num 2 = .ok ((num / 2 : ℕ) : ℤ) := CInt.div_natCast hmax two_ne_zero
    rw [sqroot, hhalf]
    exact sqrootLoop_eq htwo hmax (sqrt_le_half htwo) le_rfl (.inl rfl) (by omega)
  · exact_mod_cast Nat.sqrt_le num
  · exact_mod_cast Nat.lt_succ_sqrt num

/-- Three rounds are enough for 8, where the iteration alternates between 2 and 3. -/
theorem sqroot_exact_eight : (2 : ℤ) ≤ 8 ∧ (8 : ℤ) ≤ INT_MAX ∧
    sqroot 3 8 = some (.ok 2) ∧
    ∃ rounds r, (∀ fuel ≥ rounds, sqroot fuel 8 = some (.ok r)) ∧
      r * r ≤ 8 ∧ 8 < (r + 1) * (r + 1) :=
  ⟨by decide, by decide, by decide, sqroot_exact 8 (by decide) (by decide)⟩

end Tlpi.Debug.PrimeBug
