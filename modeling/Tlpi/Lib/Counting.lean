import Mathlib.Algebra.BigOperators.Ring.Finset
import Mathlib.Data.Fintype.Card
import Mathlib.Tactic.SplitIfs

/-! Counting over a finite family of parties: what the move of one party does to a sum over all of
them, and to the number of those that satisfy a condition. -/

namespace Tlpi.Lib
open Finset

variable {ι α : Type*} [Fintype ι] [DecidableEq ι]

theorem sum_update (g : α → ℕ) (f : ι → α) (i : ι) (a : α) :
    ∑ k, g (Function.update f i a k) + g (f i) = ∑ k, g (f k) + g a := by
  have hrest : ∑ k ∈ univ.erase i, g (Function.update f i a k) = ∑ k ∈ univ.erase i, g (f k) := by
    refine sum_congr rfl fun k hk => ?_
    rw [Function.update_of_ne (ne_of_mem_erase hk)]
  have hnew := add_sum_erase univ (fun k => g (Function.update f i a k)) (mem_univ i)
  have hold := add_sum_erase univ (fun k => g (f k)) (mem_univ i)
  simp only [Function.update_self] at hnew
  omega

variable {P : α → Prop} [DecidablePred P] {f : ι → α} {i : ι} {a : α}

theorem card_update : #{k | P (Function.update f i a k)} + (if P (f i) then 1 else 0) =
    #{k | P (f k)} + (if P a then 1 else 0) := by
  rw [card_filter, card_filter]
  exact sum_update (fun b => if P b then 1 else 0) f i a

/-- The move does not change whether the party satisfies the condition. -/
theorem card_update_of_iff (h : P a ↔ P (f i)) :
    #{k | P (Function.update f i a k)} = #{k | P (f k)} := by
  have hcard := card_update (P := P) (f := f) (i := i) (a := a)
  simp only [h] at hcard
  exact Nat.add_right_cancel hcard

theorem card_update_of_not (hold : P (f i)) (hnew : ¬ P a) :
    #{k | P (Function.update f i a k)} + 1 = #{k | P (f k)} := by
  have hcard := card_update (P := P) (f := f) (i := i) (a := a)
  rwa [if_pos hold, if_neg hnew] at hcard

theorem card_update_of_new (hold : ¬ P (f i)) (hnew : P a) :
    #{k | P (Function.update f i a k)} = #{k | P (f k)} + 1 := by
  have hcard := card_update (P := P) (f := f) (i := i) (a := a)
  rwa [if_neg hold, if_pos hnew] at hcard

end Tlpi.Lib
