import Mathlib.Tactic

/-! The binary semaphore protocol of `svsem/binary_sems.c` over a set of System V semaphores. -/

namespace Tlpi.Svsem

/-- The `semval` fields of a semaphore set. -/
abbrev SemSet (n : ℕ) := Fin n → ℕ

variable {n : ℕ}

def initSemAvailable (sems : SemSet n) (semNum : Fin n) : SemSet n := Function.update sems semNum 1

def initSemInUse (sems : SemSet n) (semNum : Fin n) : SemSet n := Function.update sems semNum 0

def bsRetryOnEintr : Bool := true

/-- What the kernel does with one blocking `semop()`. -/
inductive SemopEvent
  | applied
  | interrupted
  deriving DecidableEq

/-- One turn of the loop of `reserveSem()`: `none` while `semop()` blocks, otherwise the set and
what the function returns, where `none` stands for one more turn. -/
def reserveSem (sems : SemSet n) (semNum : Fin n) : SemopEvent → Option (SemSet n × Option ℤ)
  | .applied =>
    if 0 < sems semNum then some (Function.update sems semNum (sems semNum - 1), some 0) else none
  | .interrupted => some (sems, if bsRetryOnEintr then none else some (-1))

def releaseSem (sems : SemSet n) (semNum : Fin n) : SemSet n :=
  Function.update sems semNum (sems semNum + 1)

@[simp] theorem releaseSem_self (sems : SemSet n) (semNum : Fin n) :
    releaseSem sems semNum semNum = sems semNum + 1 := Function.update_self _ _ _

theorem releaseSem_of_ne (sems : SemSet n) {semNum k : Fin n} (h : k ≠ semNum) :
    releaseSem sems semNum k = sems k := Function.update_of_ne h _ _

theorem reserveSem_applied {sems sems' : SemSet n} {semNum : Fin n} {r : Option ℤ}
    (h : reserveSem sems semNum .applied = some (sems', r)) :
    0 < sems semNum ∧ sems' = Function.update sems semNum (sems semNum - 1) ∧ r = some 0 := by
  simp only [reserveSem, Option.ite_none_right_eq_some, Option.some.injEq, Prod.mk.injEq] at h
  exact ⟨h.1, h.2.1.symm, h.2.2.symm⟩

theorem reserveSem_interrupted (sems : SemSet n) (semNum : Fin n) :
    reserveSem sems semNum .interrupted = some (sems, none) := rfl

end Tlpi.Svsem
