import Tlpi.Lib.Strtol

/-! Arithmetic on a 32-bit `int`: operations that report an overflow or a division by zero, and
numbers that wrap around. -/

namespace Tlpi.Lib

namespace CInt

inductive Fault
  | overflow
  | divisionByZero
  deriving DecidableEq

def checked (z : ℤ) : Except Fault ℤ :=
  if INT_MIN ≤ z ∧ z ≤ INT_MAX then .ok z else .error .overflow

def add (a b : ℤ) : Except Fault ℤ := checked (a + b)

/-- The quotient is truncated towards zero. -/
def div (a b : ℤ) : Except Fault ℤ :=
  if b = 0 then .error .divisionByZero else checked (a.tdiv b)

section Nonneg
variable {a b : ℕ}

theorem checked_natCast (h : (a : ℤ) ≤ INT_MAX) : checked a = .ok (a : ℤ) := by
  have hmin : INT_MIN ≤ (a : ℤ) := by
    unfold INT_MIN
    omega
  rw [checked, if_pos ⟨hmin, h⟩]

theorem add_natCast (h : ((a + b : ℕ) : ℤ) ≤ INT_MAX) : add a b = .ok ((a + b : ℕ) : ℤ) := by
  rw [add, ← Nat.cast_add, checked_natCast h]

theorem div_natCast (ha : (a : ℤ) ≤ INT_MAX) (hb : b ≠ 0) : div a b = .ok ((a / b : ℕ) : ℤ) := by
  have hle : ((a / b : ℕ) : ℤ) ≤ INT_MAX := by
    refine le_trans ?_ ha
    exact_mod_cast Nat.div_le_self a b
  rw [div, if_neg (by exact_mod_cast hb), ← Int.ofNat_tdiv, checked_natCast hle]

end Nonneg

end CInt

theorem bmod_of_int {z : ℤ} (hmin : INT_MIN ≤ z) (hmax : z ≤ INT_MAX) : z.bmod (2 ^ 32) = z := by
  unfold INT_MIN at hmin
  unfold INT_MAX at hmax
  exact Int.bmod_eq_of_le (by omega) (by omega)

end Tlpi.Lib
