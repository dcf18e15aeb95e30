import Mathlib.Tactic

/-! Ranges that a counter hands out one after the other, and the same ranges as the values of a
counter that wraps around. -/

namespace Tlpi.Lib

/-- Offsets and lengths of consecutive ranges that begin at `o`. -/
def slots (o : ℕ) : List ℕ → List (ℕ × ℕ)
  | [] => []
  | l :: ls => (o, l) :: slots (o + l) ls

theorem slots_concat (o : ℕ) (ls : List ℕ) (l : ℕ) :
    slots o (ls ++ [l]) = slots o ls ++ [(o + ls.sum, l)] := by
  induction ls generalizing o with
  | nil => simp [slots]
  | cons k ks ih => simp [slots, ih, add_assoc]

theorem le_of_mem_slots {o : ℕ} {ls : List ℕ} {a : ℕ × ℕ} (h : a ∈ slots o ls) :
    o ≤ a.1 ∧ a.1 + a.2 ≤ o + ls.sum := by
  induction ls generalizing o with
  | nil => cases h
  | cons l ls ih =>
    rw [List.sum_cons]
    rcases List.mem_cons.mp h with rfl | h
    · exact ⟨le_rfl, by dsimp only; omega⟩
    · obtain ⟨hlow, hhigh⟩ := ih h
      omega

theorem pairwise_slots (o : ℕ) (ls : List ℕ) :
    (slots o ls).Pairwise fun a b => a.1 + a.2 ≤ b.1 := by
  induction ls generalizing o with
  | nil => exact .nil
  | cons l ls ih => exact .cons (fun a ha => (le_of_mem_slots ha).1) (ih (o + l))

/-- Ranges of less than a whole turn of the counter do not meet when it wraps around. -/
theorem pairwise_slots_wrap {w : ℕ} (base : BitVec w) {ls : List ℕ} (h : ls.sum ≤ 2 ^ w) :
    (slots 0 ls).Pairwise fun a b => ∀ x < a.2, ∀ y < b.2,
      base + BitVec.ofNat w a.1 + BitVec.ofNat w x ≠
        base + BitVec.ofNat w b.1 + BitVec.ofNat w y := by
  refine (pairwise_slots 0 ls).imp_of_mem fun {a b} ha hb hab x hx y hy heq => ?_
  have hsum : BitVec.ofNat w (a.1 + x) = BitVec.ofNat w (b.1 + y) := by
    rw [BitVec.ofNat_add, BitVec.ofNat_add]
    rw [BitVec.add_assoc, BitVec.add_assoc] at heq
    exact (BitVec.add_right_inj base).mp heq
  have hbounds := le_of_mem_slots ha
  have hbounds' := le_of_mem_slots hb
  have hmod := congrArg BitVec.toNat hsum
  rw [BitVec.toNat_ofNat, BitVec.toNat_ofNat, Nat.mod_eq_of_lt (by omega),
    Nat.mod_eq_of_lt (by omega)] at hmod
  omega

end Tlpi.Lib
