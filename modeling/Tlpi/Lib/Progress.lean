import Tlpi.Lib.Machine
import Mathlib.Tactic

/-! Machines all of whose runs come to an end: a weight that every step decreases bounds the length
of every run, and the states without a step are the ends of the runs that cannot be continued. -/

namespace Tlpi.Lib.Machine

variable {S A : Type*} {M : Machine S A}

def Stuck (M : Machine S A) (s : S) : Prop := ∀ a, M.step s a = none

/-- Runs have a bounded length, and those that cannot be continued end in a state with `Done`. -/
structure Completes (M : Machine S A) (Done : S → Prop) : Prop where
  bounded : ∀ s, M.init s → ∃ bound, ∀ as t, M.exec s as = some t → as.length ≤ bound
  done : ∀ s, M.Reachable s → M.Stuck s → Done s

/-- The same where the steps with a `cost`, which come from outside, may go on for ever: the others
are bounded in their number by that cost, and the machine does not depend on the outside to go on.
-/
structure CompletesUpTo (M : Machine S A) (cost : A → ℕ) (Done : S → Prop) : Prop where
  bounded : ∀ s, M.init s → ∃ bound, ∀ as t, M.exec s as = some t →
    as.length ≤ bound + (as.map cost).sum
  done : ∀ s, M.Reachable s → (∀ a, cost a = 0 → M.step s a = none) → Done s

section Abstraction
variable {Q : Type*} (I : Q → Prop) (state : Q → S) (weight : Q → ℕ) (cost : A → ℕ)
  (hstep : ∀ q a s', I q → M.step (state q) a = some s' →
    ∃ q', I q' ∧ s' = state q' ∧ weight q' < weight q + cost a)
include hstep

theorem length_le_weight {q : Q} {t : S} (hq : I q) (as : List A)
    (h : M.exec (state q) as = some t) : as.length ≤ weight q + (as.map cost).sum := by
  induction as generalizing q with
  | nil => exact Nat.zero_le _
  | cons a as ih =>
    simp only [execUnder, if_true] at h
    obtain ⟨u, hu, hrest⟩ := Option.bind_eq_some_iff.mp h
    obtain ⟨q', hq', rfl, hlt⟩ := hstep q a u hq hu
    have hle := ih hq' hrest
    rw [List.length_cons, List.map_cons, List.sum_cons]
    omega

/-- It is enough to follow a description of the states that every step keeps up, and that weighs
less after it. -/
theorem completesUpTo_of_abstraction {Done : S → Prop}
    (h0 : ∀ s, M.init s → ∃ q, I q ∧ s = state q)
    (hdone : ∀ q, I q → (∀ a, cost a = 0 → M.step (state q) a = none) → Done (state q)) :
    M.CompletesUpTo cost Done where
  bounded s hs := by
    obtain ⟨q, hq, rfl⟩ := h0 s hs
    exact ⟨weight q, fun as _ h => length_le_weight I state weight cost hstep hq as h⟩
  done s hs := by
    obtain ⟨q, hq, rfl⟩ := hs.invariant (I := fun s => ∃ q, I q ∧ s = state q) h0 (by
      rintro _ a s' ⟨q, hq, rfl⟩ ha
      obtain ⟨q', hq', hs', -⟩ := hstep q a s' hq ha
      exact ⟨q', hq', hs'⟩)
    exact hdone q hq

end Abstraction

theorem CompletesUpTo.completes {Done : S → Prop} (h : M.CompletesUpTo (fun _ => 0) Done) :
    M.Completes Done where
  bounded s hs := by
    obtain ⟨bound, hbound⟩ := h.bounded s hs
    refine ⟨bound, fun as t hexec => ?_⟩
    simpa using hbound as t hexec
  done s hs hstuck := h.done s hs fun a _ => hstuck a

theorem completes_of_abstraction {Q : Type*} (I : Q → Prop) (state : Q → S) (weight : Q → ℕ)
    (hstep : ∀ q a s', I q → M.step (state q) a = some s' →
      ∃ q', I q' ∧ s' = state q' ∧ weight q' < weight q) {Done : S → Prop}
    (h0 : ∀ s, M.init s → ∃ q, I q ∧ s = state q)
    (hdone : ∀ q, I q → M.Stuck (state q) → Done (state q)) : M.Completes Done :=
  (completesUpTo_of_abstraction I state weight (fun _ => 0) hstep h0 fun q hq hs =>
    hdone q hq fun a => hs a rfl).completes

theorem completesUpTo_of_weight (I : S → Prop) (weight : S → ℕ) (cost : A → ℕ) {Done : S → Prop}
    (h0 : ∀ s, M.init s → I s) (hstep : ∀ s a s', I s → M.step s a = some s' → I s')
    (hweight : ∀ s a s', I s → M.step s a = some s' → weight s' < weight s + cost a)
    (hdone : ∀ s, I s → (∀ a, cost a = 0 → M.step s a = none) → Done s) :
    M.CompletesUpTo cost Done :=
  completesUpTo_of_abstraction I id weight cost
    (fun s a s' hs ha => ⟨s', hstep s a s' hs ha, rfl, hweight s a s' hs ha⟩)
    (fun s hs => ⟨s, h0 s hs, rfl⟩) hdone

theorem completes_of_weight (I : S → Prop) (weight : S → ℕ) {Done : S → Prop}
    (h0 : ∀ s, M.init s → I s) (hstep : ∀ s a s', I s → M.step s a = some s' → I s')
    (hweight : ∀ s a s', I s → M.step s a = some s' → weight s' < weight s)
    (hdone : ∀ s, I s → M.Stuck s → Done s) : M.Completes Done :=
  completes_of_abstraction I id weight
    (fun s a s' hs ha => ⟨s', hstep s a s' hs ha, rfl, hweight s a s' hs ha⟩)
    (fun s hs => ⟨s, h0 s hs, rfl⟩) hdone

end Tlpi.Lib.Machine
