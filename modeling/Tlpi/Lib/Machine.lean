import Mathlib.Logic.Function.Basic

/-! Machines with partial steps: reachability, runs under a condition on each step, and the
invariant rules that the concurrency developments share. A step that is not enabled is `none`. -/

namespace Tlpi.Lib

structure Machine (S A : Type*) where
  init : S → Prop
  step : S → A → Option S

namespace Machine

variable {S A : Type*} {M : Machine S A} {G : S → A → Prop}

/-- States reached by runs all of whose steps meet the condition `G` on the state before them. -/
inductive ReachableUnder (M : Machine S A) (G : S → A → Prop) : S → Prop
  | init {s : S} : M.init s → ReachableUnder M G s
  | step {s s' : S} (a : A) : ReachableUnder M G s → G s a → M.step s a = some s' →
      ReachableUnder M G s'

/-- States reached by arbitrary runs. -/
abbrev Reachable (M : Machine S A) : S → Prop := ReachableUnder M fun _ _ => True

theorem ReachableUnder.invariant {I : S → Prop} (h0 : ∀ s, M.init s → I s)
    (hstep : ∀ s a s', I s → G s a → M.step s a = some s' → I s')
    {s : S} (h : ReachableUnder M G s) : I s := by
  induction h with
  | init hs => exact h0 _ hs
  | step a _ hG hs ih => exact hstep _ a _ ih hG hs

theorem Reachable.invariant {I : S → Prop} (h0 : ∀ s, M.init s → I s)
    (hstep : ∀ s a s', I s → M.step s a = some s' → I s')
    {s : S} (h : M.Reachable s) : I s :=
  ReachableUnder.invariant h0 (fun s a s' hi _ hs => hstep s a s' hi hs) h

/-- The state after a list of actions, if every one of them is enabled and meets `G`. -/
def execUnder (M : Machine S A) (G : S → A → Prop) [∀ s a, Decidable (G s a)] :
    S → List A → Option S
  | s, [] => some s
  | s, a :: as => if G s a then (M.step s a).bind fun s' => execUnder M G s' as else none

theorem reachable_execUnder [∀ s a, Decidable (G s a)] {s s' : S} (hs : M.ReachableUnder G s)
    (as : List A) (h : M.execUnder G s as = some s') : M.ReachableUnder G s' := by
  induction as generalizing s with
  | nil => exact Option.some.inj h ▸ hs
  | cons a as ih =>
    obtain ⟨hG, h⟩ := Option.ite_none_right_eq_some.mp h
    obtain ⟨t, ht, hrest⟩ := Option.bind_eq_some_iff.mp h
    exact ih (.step a hs hG ht) hrest

theorem exists_reachableUnder_of_exec [∀ s a, Decidable (G s a)] {s : S} (hs : M.init s)
    (as : List A) (p : S → Bool) (h : (M.execUnder G s as).any p = true) :
    ∃ s', M.ReachableUnder G s' ∧ p s' = true := by
  cases hs' : M.execUnder G s as with
  | none => simp [hs'] at h
  | some s' => exact ⟨s', reachable_execUnder (.init hs) as hs', by simpa [hs'] using h⟩

abbrev exec (M : Machine S A) : S → List A → Option S := M.execUnder fun _ _ => True

theorem exec_cons {s t : S} {a : A} (h : M.step s a = some t) (as : List A) :
    M.exec s (a :: as) = M.exec t as := by simp [execUnder, h]

theorem exec_snoc {s t : S} {as : List A} (h : M.exec s as = some t) (a : A) :
    M.exec s (as ++ [a]) = M.step t a := by
  induction as generalizing s with
  | nil =>
    obtain rfl : s = t := Option.some.inj h
    simp [execUnder]
  | cons b as ih =>
    simp only [execUnder, if_true] at h
    obtain ⟨u, hu, hrest⟩ := Option.bind_eq_some_iff.mp h
    rw [List.cons_append, exec_cons hu]
    exact ih hrest

/-- A run that ends in a state satisfying the decidable test `p` gives a reachable such state. -/
theorem exists_reachable_of_exec {s : S} (hs : M.init s) (as : List A) (p : S → Bool)
    (h : (M.exec s as).any p = true) : ∃ s', M.Reachable s' ∧ p s' = true :=
  exists_reachableUnder_of_exec hs as p h

end Machine

end Tlpi.Lib
