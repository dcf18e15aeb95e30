import Mathlib.Data.List.GetD
import Mathlib.Tactic

/-! The lines of a sequence, each with the separator at its end, which only the last one may
lack. -/

namespace Tlpi.Lib

variable {α : Type*} [DecidableEq α]

def lines (sep : α) : List α → List (List α)
  | [] => []
  | a :: as =>
    if a = sep then [a] :: lines sep as
    else (a :: (lines sep as).headD []) :: (lines sep as).tail

variable {sep : α}

theorem lines_flatten (as : List α) : (lines sep as).flatten = as := by
  induction as with
  | nil => rfl
  | cons a as ih =>
    rw [lines]
    split_ifs with ha
    · rw [List.flatten_cons, ih, List.singleton_append]
    · rw [List.flatten_cons, List.cons_append, ← List.flatten_cons]
      nth_rewrite 3 [← ih]
      cases lines sep as <;> rfl

theorem ne_nil_of_mem_lines {as line : List α} (h : line ∈ lines sep as) : line ≠ [] := by
  induction as with
  | nil => cases h
  | cons a as ih =>
    rw [lines] at h
    split_ifs at h with ha
    · rcases List.mem_cons.mp h with rfl | h
      · exact List.cons_ne_nil _ _
      · exact ih h
    · rcases List.mem_cons.mp h with rfl | h
      · exact List.cons_ne_nil _ _
      · exact ih (List.mem_of_mem_tail h)

/-- Behind the last line there are only empty ones. -/
theorem lines_getD_eq_nil {as : List α} {k : ℕ} :
    (lines sep as).getD k [] = [] ↔ (lines sep as).length ≤ k := by
  constructor
  · intro hnil
    by_contra hk
    have hlt : k < (lines sep as).length := not_le.mp hk
    rw [List.getD_eq_getElem _ _ hlt] at hnil
    exact ne_nil_of_mem_lines (List.getElem_mem hlt) hnil
  · intro hk
    exact List.getD_eq_default _ _ hk

/-- What is left of the sequence behind the first line. -/
theorem flatten_tail_lines (as : List α) :
    (lines sep as).tail.flatten = as.drop ((lines sep as).headD []).length := by
  have hls : ∀ ls : List (List α), ls.tail.flatten = ls.flatten.drop (ls.headD []).length := by
    intro ls
    cases ls with
    | nil => rfl
    | cons line ls => exact (List.drop_left ..).symm
  rw [hls, lines_flatten]

theorem lines_drop (as : List α) :
    lines sep (as.drop ((lines sep as).headD []).length) = (lines sep as).tail := by
  induction as with
  | nil => rfl
  | cons a as ih =>
    rw [lines]
    split_ifs with ha
    · rfl
    · exact ih

/-- Only the last line may lack the separator. -/
theorem sep_mem_of_tail_ne_nil {as : List α} (h : (lines sep as).tail ≠ []) :
    sep ∈ (lines sep as).headD [] := by
  induction as with
  | nil => exact absurd rfl h
  | cons a as ih =>
    rw [lines] at h ⊢
    split_ifs at h ⊢ with ha
    · exact List.mem_singleton.mpr ha.symm
    · exact List.mem_cons_of_mem _ (ih h)

end Tlpi.Lib
