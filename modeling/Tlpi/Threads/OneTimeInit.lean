import Tlpi.Lib.Counting
import Tlpi.Lib.Machine
import Tlpi.Lib.Progress
import Mathlib.Tactic

/-! `one_time_init()` of `threads/one_time_init.c`, called any number of times by any number of
threads on one `once_struct`. The call of `init` is two steps, its start and its end, so that what
other threads do meanwhile is part of the model. -/

namespace Tlpi.Threads.OneTimeInit
open Finset Lib

inductive Pc
  /-- Outside of a call. -/
  | idle
  /-- Past `pthread_mutex_lock()`. -/
  | locked
  /-- Inside `init`. -/
  | running
  /-- `init` has returned and `called` is not yet set. -/
  | ran
  /-- Before `pthread_mutex_unlock()`. -/
  | unlock
  deriving DecidableEq

structure State (n : ℕ) where
  /-- The owner of `mtx`. -/
  owner : Option (Fin n)
  called : Bool
  pc : Fin n → Pc
  /-- The calls that have returned, for each thread. -/
  returned : Fin n → ℕ
  /-- How often `init` has been entered, and how often it has returned. -/
  entered : ℕ
  left : ℕ

inductive Act (n : ℕ)
  | lock (i : Fin n)
  | test (i : Fin n)
  | initReturns (i : Fin n)
  | setCalled (i : Fin n)
  | unlock (i : Fin n)

variable {n : ℕ}

/-- `ONCE_INITIALISER`, before the first call. -/
def start (n : ℕ) : State n where
  owner := none
  called := false
  pc := fun _ => .idle
  returned := fun _ => 0
  entered := 0
  left := 0

/-- Thread `i` makes `calls i` calls. -/
def step (calls : Fin n → ℕ) (s : State n) : Act n → Option (State n)
  | .lock i =>
    if s.pc i = .idle ∧ s.returned i < calls i ∧ s.owner = none then
      some { s with owner := some i, pc := Function.update s.pc i .locked }
    else none
  | .test i =>
    if s.pc i = .locked then
      if s.called then some { s with pc := Function.update s.pc i .unlock }
      else some { s with pc := Function.update s.pc i .running, entered := s.entered + 1 }
    else none
  | .initReturns i =>
    if s.pc i = .running then
      some { s with pc := Function.update s.pc i .ran, left := s.left + 1 }
    else none
  | .setCalled i =>
    if s.pc i = .ran then some { s with called := true, pc := Function.update s.pc i .unlock }
    else none
  | .unlock i =>
    if s.pc i = .unlock ∧ s.owner = some i then
      some { s with
        owner := none
        pc := Function.update s.pc i .idle
        returned := Function.update s.returned i (s.returned i + 1) }
    else none

def machine (calls : Fin n → ℕ) : Machine (State n) (Act n) where
  init s := s = start n
  step := step calls

def State.Finished (calls : Fin n → ℕ) (s : State n) : Prop :=
  ∀ i, s.pc i = .idle ∧ s.returned i = calls i

/-- How far `init` is, by the thread that has the mutex: the pairs of `entered` and `left`. -/
inductive Progress (s : State n) : Prop
  | before (hcalled : s.called = false) (hrun : s.entered = 0 ∧ s.left = 0)
      (hnone : ∀ i, s.returned i = 0)
      (hpc : ∀ i, s.pc i = .idle ∨ s.pc i = .locked)
  | running (i : Fin n) (hcalled : s.called = false) (hrun : s.entered = 1 ∧ s.left = 0)
      (hnone : ∀ i, s.returned i = 0) (hpc : s.pc i = .running)
  | ran (i : Fin n) (hcalled : s.called = false) (hrun : s.entered = 1 ∧ s.left = 1)
      (hnone : ∀ i, s.returned i = 0) (hpc : s.pc i = .ran)
  | after (hcalled : s.called = true) (hrun : s.entered = 1 ∧ s.left = 1)
      (hpc : ∀ i, s.pc i = .idle ∨ s.pc i = .locked ∨ s.pc i = .unlock)

structure Inv (calls : Fin n → ℕ) (s : State n) : Prop where
  owner : ∀ i, s.owner = some i ↔ s.pc i ≠ .idle
  returned_le : ∀ i, s.returned i ≤ calls i
  returned_lt : ∀ i, s.pc i ≠ .idle → s.returned i < calls i
  progress : Progress s

theorem inv_start (calls : Fin n → ℕ) : Inv calls (start n) where
  owner i := by simp [start]
  returned_le i := Nat.zero_le _
  returned_lt i h := absurd rfl h
  progress := .before rfl ⟨rfl, rfl⟩ (fun _ => rfl) fun _ => Or.inl rfl

variable {calls : Fin n → ℕ} {s s' : State n}

/-- All threads but the owner of the mutex are outside of a call. -/
theorem Inv.idle_of_ne (h : Inv calls s) {i k : Fin n} (hi : s.pc i ≠ .idle) (hk : k ≠ i) :
    s.pc k = .idle := by
  by_contra hne
  have howner := (h.owner i).mpr hi
  exact hk (Option.some.inj (((h.owner k).mpr hne).symm.trans howner))

/-- The owner goes on inside of its call. -/
theorem inv_move (h : Inv calls s) {i : Fin n} {pc : Pc} (hi : s.pc i ≠ .idle) (hpc : pc ≠ .idle)
    {called : Bool} {entered left : ℕ}
    (hprogress : Progress ⟨s.owner, called, Function.update s.pc i pc, s.returned, entered, left⟩) :
    Inv calls ⟨s.owner, called, Function.update s.pc i pc, s.returned, entered, left⟩ where
  owner k := by
    rw [h.owner k]
    by_cases hk : k = i
    · subst hk
      simp [hi, hpc]
    · simp [Function.update_of_ne hk]
  returned_le := h.returned_le
  returned_lt k hk := by
    by_cases hki : k = i
    · exact h.returned_lt k (hki ▸ hi)
    · exact h.returned_lt k (by simpa [Function.update_of_ne hki] using hk)
  progress := hprogress

theorem inv_lock (h : Inv calls s) {i : Fin n} (hidle : s.pc i = .idle)
    (hlt : s.returned i < calls i) (hfree : s.owner = none) :
    Inv calls { s with owner := some i, pc := Function.update s.pc i .locked } := by
  have hall : ∀ k, s.pc k = .idle := by
    intro k
    by_contra hne
    exact absurd (hfree.symm.trans ((h.owner k).mpr hne)) (by simp)
  have hpc : ∀ k, Function.update s.pc i .locked k = if k = i then .locked else .idle := by
    intro k
    rw [Function.update_apply, hall k]
  refine ⟨fun k => ?_, h.returned_le, fun k hk => ?_, ?_⟩
  · by_cases hk : k = i
    · subst hk
      simp
    · simp [hall k, hk, Ne.symm hk]
  · by_cases hki : k = i
    · exact hki ▸ hlt
    · exact absurd (hall k) (by simpa [hki] using hk)
  · cases h.progress with
    | before hcalled hrun hnone _ =>
      refine .before hcalled hrun hnone fun k => ?_
      simp only [hpc]
      split_ifs <;> simp
    | running k _ _ _ hk | ran k _ _ _ hk => exact absurd ((hall k).symm.trans hk) (by decide)
    | after hcalled hrun _ =>
      refine .after hcalled hrun fun k => ?_
      simp only [hpc]
      split_ifs <;> simp

theorem inv_unlock (h : Inv calls s) {i : Fin n} (hi : s.pc i = .unlock) :
    Inv calls { s with
      owner := none
      pc := Function.update s.pc i .idle
      returned := Function.update s.returned i (s.returned i + 1) } := by
  have hne : s.pc i ≠ .idle := by simp [hi]
  have hall : ∀ k, Function.update s.pc i .idle k = .idle := by
    intro k
    by_cases hk : k = i
    · exact hk ▸ Function.update_self ..
    · exact (Function.update_of_ne hk _ _).trans (h.idle_of_ne hne hk)
  refine ⟨fun k => ?_, fun k => ?_, fun k hk => absurd (hall k) hk, ?_⟩
  · simp only [hall k, ne_eq, not_true_eq_false, reduceCtorEq]
  · by_cases hk : k = i
    · subst hk
      simpa using h.returned_lt k hne
    · simpa only [Function.update_of_ne hk] using h.returned_le k
  · cases h.progress with
    | before _ _ _ hpc =>
      rcases hpc i with hk | hk <;> exact absurd (hi.symm.trans hk) (by decide)
    | running k _ _ _ hk | ran k _ _ _ hk =>
      have hik : k = i := by
        by_contra hki
        exact absurd ((h.idle_of_ne hne hki).symm.trans hk) (by decide)
      exact absurd (hi.symm.trans (hik ▸ hk)) (by decide)
    | after hcalled hrun _ => exact .after hcalled hrun fun k => Or.inl (hall k)

/-- The thread that is at `pc` inside of its call, where `init` stands as that says. -/
theorem Inv.progress_of_pc (h : Inv calls s) {i : Fin n} (hi : s.pc i ≠ .idle) :
    (s.pc i = .running → s.called = false ∧ (s.entered = 1 ∧ s.left = 0) ∧
      ∀ k, s.returned k = 0) ∧
    (s.pc i = .ran → s.called = false ∧ (s.entered = 1 ∧ s.left = 1) ∧ ∀ k, s.returned k = 0) ∧
    (s.pc i = .locked → s.called = false →
      (s.entered = 0 ∧ s.left = 0) ∧ ∀ k, s.returned k = 0) ∧
    (s.called = true → s.entered = 1 ∧ s.left = 1) := by
  have honly : ∀ k, s.pc k ≠ .idle → k = i := fun k hk => by
    by_contra hki
    exact hk (h.idle_of_ne hi hki)
  cases h.progress with
  | before hcalled hrun hnone hpc =>
    have hlocked : s.pc i = .locked := (hpc i).resolve_left hi
    simp [hlocked, hcalled, hrun, hnone]
  | running k hcalled hrun hnone hpc =>
    obtain rfl := honly k (by simp [hpc])
    simp [hpc, hcalled, hrun, hnone]
  | ran k hcalled hrun hnone hpc =>
    obtain rfl := honly k (by simp [hpc])
    simp [hpc, hcalled, hrun, hnone]
  | after hcalled hrun hpc =>
    rcases (hpc i).resolve_left hi with hpc | hpc <;> simp [hpc, hcalled, hrun]

theorem inv_step (h : Inv calls s) {a : Act n} (ha : step calls s a = some s') : Inv calls s' := by
  cases a with
  | lock i =>
    obtain ⟨⟨hidle, hlt, hfree⟩, ha⟩ := Option.ite_none_right_eq_some.mp ha
    obtain rfl := Option.some.inj ha
    exact inv_lock h hidle hlt hfree
  | test i =>
    obtain ⟨hpc, ha⟩ := Option.ite_none_right_eq_some.mp ha
    have hi : s.pc i ≠ .idle := by simp [hpc]
    obtain ⟨-, -, hlocked, hdone⟩ := h.progress_of_pc hi
    split_ifs at ha with hcalled
    · obtain rfl := Option.some.inj ha
      refine inv_move h hi (by decide) (.after hcalled (hdone hcalled) fun k => ?_)
      by_cases hk : k = i
      · simp [hk]
      · simp [Function.update_of_ne hk, h.idle_of_ne hi hk]
    · obtain rfl := Option.some.inj ha
      have hfalse : s.called = false := Bool.eq_false_iff.mpr hcalled
      obtain ⟨⟨hentered, hleft⟩, hnone⟩ := hlocked hpc hfalse
      exact inv_move h hi (by decide)
        (.running i hfalse ⟨by simp [hentered], hleft⟩ hnone (Function.update_self ..))
  | initReturns i =>
    obtain ⟨hpc, ha⟩ := Option.ite_none_right_eq_some.mp ha
    obtain rfl := Option.some.inj ha
    have hi : s.pc i ≠ .idle := by simp [hpc]
    obtain ⟨hcalled, ⟨hentered, hleft⟩, hnone⟩ := (h.progress_of_pc hi).1 hpc
    exact inv_move h hi (by decide)
      (.ran i hcalled ⟨hentered, by simp [hleft]⟩ hnone (Function.update_self ..))
  | setCalled i =>
    obtain ⟨hpc, ha⟩ := Option.ite_none_right_eq_some.mp ha
    obtain rfl := Option.some.inj ha
    have hi : s.pc i ≠ .idle := by simp [hpc]
    obtain ⟨-, hrun, -⟩ := (h.progress_of_pc hi).2.1 hpc
    refine inv_move h hi (by decide) (.after rfl hrun fun k => ?_)
    by_cases hk : k = i
    · simp [hk]
    · simp [Function.update_of_ne hk, h.idle_of_ne hi hk]
  | unlock i =>
    obtain ⟨⟨hpc, -⟩, ha⟩ := Option.ite_none_right_eq_some.mp ha
    obtain rfl := Option.some.inj ha
    exact inv_unlock h hpc

theorem inv_of_reachable (hs : (machine calls).Reachable s) : Inv calls s := by
  refine hs.invariant (I := Inv calls) ?_ fun _ _ _ h ha => inv_step h ha
  rintro _ rfl
  exact inv_start calls

/-! ## Every run ends -/

/-- The steps of a call that are done. -/
def Pc.past : Pc → ℕ
  | .idle => 0
  | .locked => 1
  | .running => 2
  | .ran => 3
  | .unlock => 4

def stepsLeft (calls returned : ℕ) (pc : Pc) : ℕ := 5 * (calls - returned) - pc.past

def weight (calls : Fin n → ℕ) (s : State n) : ℕ :=
  ∑ i, stepsLeft (calls i) (s.returned i) (s.pc i)

/-- One thread goes on and the others stay where they are. -/
theorem weight_lt (i : Fin n)
    (hothers : ∀ k, k ≠ i → s'.returned k = s.returned k ∧ s'.pc k = s.pc k)
    (hi : stepsLeft (calls i) (s'.returned i) (s'.pc i) <
      stepsLeft (calls i) (s.returned i) (s.pc i)) : weight calls s' < weight calls s := by
  refine sum_lt_sum (fun k _ => ?_) ⟨i, mem_univ i, hi⟩
  by_cases hk : k = i
  · exact hk ▸ hi.le
  · rw [(hothers k hk).1, (hothers k hk).2]

theorem weight_move {i : Fin n} {pc : Pc} (hlt : s.returned i < calls i)
    (hpast : (s.pc i).past < pc.past) (owner : Option (Fin n)) (called : Bool) (entered left : ℕ) :
    weight calls ⟨owner, called, Function.update s.pc i pc, s.returned, entered, left⟩ <
      weight calls s := by
  have h4 : pc.past ≤ 4 := by cases pc <;> decide
  refine weight_lt i (fun k hk => ⟨rfl, Function.update_of_ne hk _ _⟩) ?_
  simp only [Function.update_self, stepsLeft]
  omega

theorem weight_step (h : Inv calls s) {a : Act n} (ha : step calls s a = some s') :
    weight calls s' < weight calls s := by
  cases a with
  | lock i =>
    obtain ⟨⟨hidle, hlt, -⟩, ha⟩ := Option.ite_none_right_eq_some.mp ha
    obtain rfl := Option.some.inj ha
    exact weight_move hlt (by simp [hidle, Pc.past]) ..
  | test i =>
    obtain ⟨hpc, ha⟩ := Option.ite_none_right_eq_some.mp ha
    have hlt := h.returned_lt i (by simp [hpc])
    split_ifs at ha
    all_goals
      obtain rfl := Option.some.inj ha
      exact weight_move hlt (by simp [hpc, Pc.past]) ..
  | initReturns i | setCalled i =>
    obtain ⟨hpc, ha⟩ := Option.ite_none_right_eq_some.mp ha
    obtain rfl := Option.some.inj ha
    exact weight_move (h.returned_lt i (by simp [hpc])) (by simp [hpc, Pc.past]) ..
  | unlock i =>
    obtain ⟨⟨hpc, -⟩, ha⟩ := Option.ite_none_right_eq_some.mp ha
    obtain rfl := Option.some.inj ha
    have hlt := h.returned_lt i (by simp [hpc])
    refine weight_lt i (fun k hk => ⟨Function.update_of_ne hk _ _, Function.update_of_ne hk _ _⟩) ?_
    simp only [Function.update_self, stepsLeft, hpc, Pc.past]
    omega

theorem finished_of_stuck (h : Inv calls s) (hs : (machine calls).Stuck s) : s.Finished calls := by
  have hidle : ∀ i, s.pc i = .idle := by
    intro i
    cases hpc : s.pc i with
    | idle => rfl
    | locked =>
      have htest := hs (.test i)
      simp only [machine, step, hpc, if_true] at htest
      split_ifs at htest
    | running =>
      have hreturns := hs (.initReturns i)
      simp [machine, step, hpc] at hreturns
    | ran =>
      have hset := hs (.setCalled i)
      simp [machine, step, hpc] at hset
    | unlock =>
      have hunlock := hs (.unlock i)
      simp [machine, step, hpc, (h.owner i).mpr (by simp [hpc])] at hunlock
  intro i
  refine ⟨hidle i, le_antisymm (h.returned_le i) ?_⟩
  by_contra hlt
  have hfree : s.owner = none := by
    cases ho : s.owner with
    | none => rfl
    | some k => exact absurd (hidle k) ((h.owner k).mp ho)
  have hlock := hs (.lock i)
  simp [machine, step, hidle i, not_le.mp hlt, hfree] at hlock

theorem Progress.entered_le_one (h : Progress s) :
    s.entered ≤ 1 ∧ s.left ≤ s.entered ∧ ∀ i, 0 < s.returned i → s.entered = 1 ∧ s.left = 1 := by
  cases h with
  | before _ hrun hnone | running _ _ hrun hnone | ran _ _ hrun hnone =>
    exact ⟨by omega, by omega, fun i hi => absurd (hnone i) hi.ne'⟩
  | after _ hrun => exact ⟨by omega, by omega, fun _ _ => hrun⟩

/-- Whatever threads call it and however often, every call of `one_time_init()` returns, `init` is
entered at most once, and it has returned before the first call does. -/
theorem one_time_init_once (calls : Fin n → ℕ) :
    (machine calls).Completes (State.Finished calls) ∧
      ∀ s, (machine calls).Reachable s →
        s.entered ≤ 1 ∧ s.left ≤ s.entered ∧
        ∀ i, 0 < s.returned i → s.entered = 1 ∧ s.left = 1 := by
  refine ⟨Machine.completes_of_weight (Inv calls) (weight calls) (fun _ h => h ▸ inv_start calls)
    (fun _ _ _ h ha => inv_step h ha) (fun _ _ _ h ha => weight_step h ha)
    (fun _ h hs => finished_of_stuck h hs), fun s hs => ?_⟩
  exact (inv_of_reachable hs).progress.entered_le_one

end Tlpi.Threads.OneTimeInit
