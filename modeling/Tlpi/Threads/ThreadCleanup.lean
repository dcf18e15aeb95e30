import Tlpi.Lib.Machine
import Tlpi.Lib.Progress
import Mathlib.Tactic

/-! `threads/thread_cleanup.c`: a thread that has a block of memory and a mutex to give back, and is
either cancelled by the main thread or told to go on.

The delay of the main thread orders nothing, so that the thread may be anywhere when it is
cancelled. A pending request is acted upon in `pthread_cond_wait()`, and may be acted upon in
`printf()`. -/

namespace Tlpi.Threads.ThreadCleanup
open Lib

/-- What the main thread does, by its arguments. -/
inductive Mode
  | cancel
  | signal
  deriving DecidableEq

inductive ThreadPc
  | malloc
  /-- In the first `printf()`. -/
  | printf
  | lock
  /-- At the test of `glob`. -/
  | test
  /-- Blocked in `pthread_cond_wait()`. -/
  | waiting
  /-- About to get the mutex back, in order to return or to be cancelled. -/
  | relock (canceled : Bool)
  /-- In the second `printf()`. -/
  | completed
  /-- In `cleanupHandler()`. -/
  | free (canceled : Bool)
  | unlock (canceled : Bool)
  | ended (canceled : Bool)
  /-- Cancelled before `pthread_cleanup_push()`. -/
  | endedEarly
  deriving DecidableEq

inductive MainPc
  | start
  | lock
  | setGlob
  | unlock
  | signal
  | join
  | exited (canceled : Bool)
  deriving DecidableEq

inductive Owner
  | main
  | thread
  deriving DecidableEq

structure State where
  thread : ThreadPc
  main : MainPc
  mtx : Option Owner
  glob : Bool
  /-- A request to cancel the thread is pending. -/
  pending : Bool
  allocated : ℕ
  freed : ℕ

inductive Act
  | thread
  /-- The thread acts upon the request. -/
  | canceled
  | spurious
  | main
  deriving DecidableEq

def threadStep (s : State) : Option State :=
  match s.thread with
  | .malloc => some { s with thread := .printf, allocated := s.allocated + 1 }
  | .printf => some { s with thread := .lock }
  | .lock => if s.mtx = none then some { s with thread := .test, mtx := some .thread } else none
  | .test =>
    if s.glob then some { s with thread := .completed }
    else some { s with thread := .waiting, mtx := none }
  | .waiting => none
  | .relock canceled =>
    if s.mtx = none then
      some { s with thread := if canceled then .free true else .test, mtx := some .thread }
    else none
  | .completed => some { s with thread := .free false }
  | .free canceled => some { s with thread := .unlock canceled, freed := s.freed + 1 }
  | .unlock canceled => some { s with thread := .ended canceled, mtx := none }
  | .ended _ | .endedEarly => none

/-- The handler is pushed with the mutex locked, and runs with the mutex locked. -/
def cancelStep (s : State) : Option State :=
  if s.pending then
    match s.thread with
    | .printf => some { s with thread := .endedEarly }
    | .waiting => some { s with thread := .relock true }
    | .completed => some { s with thread := .free true }
    | _ => none
  else none

def mainStep (mode : Mode) (s : State) : Option State :=
  match s.main with
  | .start =>
    match mode with
    | .cancel => some { s with main := .join, pending := true }
    | .signal => some { s with main := .lock }
  | .lock => if s.mtx = none then some { s with main := .setGlob, mtx := some .main } else none
  | .setGlob => some { s with main := .unlock, glob := true }
  | .unlock => some { s with main := .signal, mtx := none }
  | .signal => some { s with
      main := .join
      thread := if s.thread = .waiting then .relock false else s.thread }
  | .join =>
    match s.thread with
    | .ended canceled => some { s with main := .exited canceled }
    | .endedEarly => some { s with main := .exited true }
    | _ => none
  | .exited _ => none

def step (mode : Mode) (s : State) : Act → Option State
  | .thread => threadStep s
  | .canceled => cancelStep s
  | .spurious => if s.thread = .waiting then some { s with thread := .relock false } else none
  | .main => mainStep mode s

def start : State := ⟨.malloc, .start, none, false, false, 0, 0⟩

def machine (mode : Mode) : Machine State Act where
  init s := s = start
  step := step mode

/-! ## The places of the threads -/

/-- The thread has the mutex. -/
def ThreadPc.holds : ThreadPc → Bool
  | test | completed | free _ | unlock _ => true
  | _ => false

def MainPc.holds : MainPc → Bool
  | setGlob | unlock => true
  | _ => false

/-- The main thread has set `glob`. -/
def MainPc.told : MainPc → Bool
  | unlock | signal | join | exited _ => true
  | _ => false

def ThreadPc.allocated : ThreadPc → ℕ
  | malloc => 0
  | _ => 1

def ThreadPc.freed : ThreadPc → ℕ
  | unlock _ | ended _ => 1
  | _ => 0

/-- On the way that needs a request. -/
def ThreadPc.isCanceled : ThreadPc → Bool
  | relock canceled | free canceled | unlock canceled | ended canceled => canceled
  | endedEarly => true
  | _ => false

/-- On the way that needs `glob`. -/
def ThreadPc.isCompleted : ThreadPc → Bool
  | completed => true
  | free canceled | unlock canceled | ended canceled => !canceled
  | _ => false

structure Inv (mode : Mode) (s : State) : Prop where
  thread_holds : s.mtx = some .thread ↔ s.thread.holds = true
  main_holds : s.mtx = some .main ↔ s.main.holds = true
  allocated : s.allocated = s.thread.allocated
  freed : s.freed = s.thread.freed
  glob : s.glob = true ↔ mode = .signal ∧ s.main.told = true
  pending : s.pending = true ↔ mode = .cancel ∧ s.main ≠ .start
  cancel : mode = .cancel → s.main = .start ∨ s.main = .join ∨ s.main = .exited true
  canceled : s.thread.isCanceled = true → s.pending = true
  completed : s.thread.isCompleted = true → s.glob = true
  /-- The signal finds the thread if it waits. -/
  woken : s.glob = true → s.thread = .waiting → s.main = .unlock ∨ s.main = .signal
  exited : ∀ canceled, s.main = .exited canceled →
    s.thread = .ended canceled ∨ (s.thread = .endedEarly ∧ canceled = true)

variable {mode : Mode} {s s' : State}

theorem inv_start : Inv mode start := by
  constructor <;>
    simp [start, ThreadPc.holds, MainPc.holds, ThreadPc.allocated, ThreadPc.freed, MainPc.told,
      ThreadPc.isCanceled,
      ThreadPc.isCompleted]

/-- A thread that still has steps to take has not been joined. -/
theorem Inv.not_exited (h : Inv mode s) (hend : ∀ c, s.thread ≠ .ended c)
    (hearly : s.thread ≠ .endedEarly) (c : Bool) : s.main ≠ .exited c := by
  intro hmain
  rcases h.exited c hmain with ht | ⟨ht, -⟩
  · exact hend c ht
  · exact hearly ht

/-- The thread goes from one place to another. -/
theorem inv_move {pc : ThreadPc} {mtx : Option Owner} {allocated freed : ℕ} (h : Inv mode s)
    (hend : ∀ c, s.thread ≠ .ended c) (hearly : s.thread ≠ .endedEarly)
    (hthread : mtx = some .thread ↔ pc.holds = true)
    (hmain : mtx = some .main ↔ s.mtx = some .main) (hallocated : allocated = pc.allocated)
    (hfreed : freed = pc.freed)
    (hcanceled : pc.isCanceled = true → s.pending = true)
    (hcompleted : pc.isCompleted = true → s.glob = true)
    (hwaiting : pc = .waiting → s.glob = false) :
    Inv mode { s with thread := pc, mtx, allocated, freed } where
  thread_holds := hthread
  main_holds := hmain.trans h.main_holds
  allocated := hallocated
  freed := hfreed
  glob := h.glob
  pending := h.pending
  cancel := h.cancel
  canceled := hcanceled
  completed := hcompleted
  woken hglob hpc := by simp [hwaiting hpc] at hglob
  exited c hc := absurd hc (h.not_exited hend hearly c)

theorem inv_thread (h : Inv mode s) (hs : threadStep s = some s') : Inv mode s' := by
  have halloc := h.allocated
  have hfreed := h.freed
  have hthread := h.thread_holds
  have hcanceled := h.canceled
  have hcompleted := h.completed
  cases hpc : s.thread <;> simp only [threadStep, hpc] at hs <;>
    rw [hpc] at halloc hfreed hthread hcanceled hcompleted
  case malloc =>
    cases hs
    exact inv_move h (by simp [hpc]) (by simp [hpc]) hthread Iff.rfl (congrArg (· + 1) halloc)
      hfreed hcanceled hcompleted (by simp)
  case printf =>
    cases hs
    exact inv_move h (by simp [hpc]) (by simp [hpc]) hthread Iff.rfl halloc hfreed hcanceled
      hcompleted (by simp)
  case lock =>
    obtain ⟨hfree, ⟨⟩⟩ := Option.ite_none_right_eq_some.mp hs
    exact inv_move h (by simp [hpc]) (by simp [hpc]) (iff_of_true rfl rfl) (by simp [hfree]) halloc
      hfreed hcanceled hcompleted (by simp)
  case test =>
    have hmtx : s.mtx = some .thread := hthread.mpr rfl
    split_ifs at hs with hglob <;> cases hs
    · exact inv_move h (by simp [hpc]) (by simp [hpc]) hthread Iff.rfl halloc hfreed hcanceled
        (fun _ => hglob) (by simp)
    · exact inv_move h (by simp [hpc]) (by simp [hpc]) (by simp [ThreadPc.holds]) (by simp [hmtx])
        halloc hfreed hcanceled hcompleted fun _ => Bool.eq_false_iff.mpr hglob
  case waiting => cases hs
  case relock c =>
    obtain ⟨hfree, ⟨⟩⟩ := Option.ite_none_right_eq_some.mp hs
    cases c with
    | true =>
      exact inv_move h (by simp [hpc]) (by simp [hpc]) (iff_of_true rfl rfl) (by simp [hfree])
        halloc hfreed hcanceled (by simp [ThreadPc.isCompleted]) (by simp)
    | false =>
      exact inv_move h (by simp [hpc]) (by simp [hpc]) (iff_of_true rfl rfl) (by simp [hfree])
        halloc hfreed hcanceled hcompleted (by simp)
  case completed =>
    cases hs
    exact inv_move h (by simp [hpc]) (by simp [hpc]) hthread Iff.rfl halloc hfreed hcanceled
      hcompleted (by simp)
  case free c =>
    cases hs
    exact inv_move h (by simp [hpc]) (by simp [hpc]) hthread Iff.rfl halloc
      (congrArg (· + 1) hfreed) hcanceled hcompleted (by simp)
  case unlock c =>
    have hmtx : s.mtx = some .thread := hthread.mpr rfl
    cases hs
    exact inv_move h (by simp [hpc]) (by simp [hpc]) (by simp [ThreadPc.holds]) (by simp [hmtx])
      halloc hfreed hcanceled hcompleted (by simp)
  case ended | endedEarly => cases hs

theorem inv_canceled (h : Inv mode s) (hs : cancelStep s = some s') : Inv mode s' := by
  obtain ⟨hpending, hs⟩ := Option.ite_none_right_eq_some.mp hs
  have halloc := h.allocated
  have hfreed := h.freed
  have hthread := h.thread_holds
  split at hs
  · next hpc =>
    cases hs
    rw [hpc] at halloc hfreed hthread
    exact inv_move h (by simp [hpc]) (by simp [hpc]) hthread Iff.rfl halloc hfreed
      (fun _ => hpending) (by simp [ThreadPc.isCompleted]) (by simp)
  · next hpc =>
    cases hs
    rw [hpc] at halloc hfreed hthread
    exact inv_move h (by simp [hpc]) (by simp [hpc]) hthread Iff.rfl halloc hfreed
      (fun _ => hpending) (by simp [ThreadPc.isCompleted]) (by simp)
  · next hpc =>
    cases hs
    rw [hpc] at halloc hfreed hthread
    exact inv_move h (by simp [hpc]) (by simp [hpc]) hthread Iff.rfl halloc hfreed
      (fun _ => hpending) (by simp [ThreadPc.isCompleted]) (by simp)
  · cases hs

/-- The thread leaves the wait without a request. -/
theorem inv_wake (h : Inv mode s) (hpc : s.thread = .waiting) :
    Inv mode { s with thread := .relock false } := by
  have halloc := h.allocated
  have hfreed := h.freed
  have hthread := h.thread_holds
  rw [hpc] at halloc hfreed hthread
  exact inv_move h (by simp [hpc]) (by simp [hpc]) hthread Iff.rfl halloc hfreed
    (by simp [ThreadPc.isCanceled]) (by simp [ThreadPc.isCompleted]) (by simp)

theorem Inv.mode_signal (h : Inv mode s) (hstart : s.main ≠ .start) (hjoin : s.main ≠ .join)
    (hexited : s.main ≠ .exited true) : mode = .signal := by
  cases hmode : mode with
  | signal => rfl
  | cancel =>
    rcases h.cancel hmode with hm | hm | hm
    · exact absurd hm hstart
    · exact absurd hm hjoin
    · exact absurd hm hexited

theorem inv_begin (h : Inv mode s) (hpc : s.main = .start) (hs : mainStep mode s = some s') :
    Inv mode s' := by
  have hglob := h.glob
  have hpending := h.pending
  have hmain := h.main_holds
  rw [hpc] at hglob hpending hmain
  have hfalse : s.glob = false := Bool.eq_false_iff.mpr fun hg => by
    simpa [MainPc.told] using hglob.mp hg
  simp only [mainStep, hpc] at hs
  cases mode <;> cases hs
  · exact { h with
      main_holds := hmain
      glob := by simp [hfalse]
      pending := by simp
      cancel := fun _ => .inr (.inl rfl)
      canceled := fun _ => rfl
      woken := fun hg => by simp [hfalse] at hg
      exited := by simp }
  · exact { h with
      main_holds := hmain
      glob := by simp [hfalse, MainPc.told]
      pending := by simpa using hpending
      cancel := by simp
      woken := fun hg => by simp [hfalse] at hg
      exited := by simp }

theorem inv_join (h : Inv mode s) (hpc : s.main = .join) (hs : mainStep mode s = some s') :
    Inv mode s' := by
  have hglob := h.glob
  have hpending := h.pending
  have hmain := h.main_holds
  have hwoken := h.woken
  rw [hpc] at hglob hpending hmain hwoken
  simp only [mainStep, hpc] at hs
  split at hs
  · next c ht =>
    cases hs
    have hcancel : mode = .cancel → c = true := by
      rintro rfl
      by_contra hc
      have hg := h.completed (by simp [ht, ThreadPc.isCompleted, hc])
      simpa using hglob.mp hg
    exact { h with
      main_holds := hmain
      glob := hglob
      pending := by simpa using hpending
      cancel := fun hm => .inr (.inr (by rw [hcancel hm]))
      woken := fun hg hw => by simp [ht] at hw
      exited := fun c' hc' => by cases hc'; exact .inl ht }
  · next ht =>
    cases hs
    exact { h with
      main_holds := hmain
      glob := hglob
      pending := by simpa using hpending
      cancel := fun _ => .inr (.inr rfl)
      woken := fun hg hw => by simp [ht] at hw
      exited := fun c' hc' => by cases hc'; exact .inr ⟨ht, rfl⟩ }
  · cases hs

/-- Past the signal, nobody waits. -/
theorem inv_signaled (h : Inv .signal s) (hpc : s.main = .signal) (hwait : s.thread ≠ .waiting) :
    Inv .signal { s with main := .join } := by
  have hglob : s.glob = true := h.glob.mpr ⟨rfl, by rw [hpc]; rfl⟩
  have hmain := h.main_holds
  rw [hpc] at hmain
  exact { h with
    main_holds := hmain
    glob := by simp [hglob, MainPc.told]
    pending := by simpa using h.pending
    cancel := by simp
    woken := fun _ hw => absurd hw hwait
    exited := by simp }

theorem inv_main (h : Inv mode s) (hs : mainStep mode s = some s') : Inv mode s' := by
  have hthread := h.thread_holds
  have hmain := h.main_holds
  cases hpc : s.main
  case start => exact inv_begin h hpc hs
  case join => exact inv_join h hpc hs
  case exited => simp [mainStep, hpc] at hs
  all_goals
    have hmode : mode = .signal := h.mode_signal (by simp [hpc]) (by simp [hpc]) (by simp [hpc])
    subst hmode
    have hpending : s.pending = false := Bool.eq_false_iff.mpr fun hp => by
      simpa using h.pending.mp hp
    simp only [mainStep, hpc] at hs
    rw [hpc] at hmain
  case lock =>
    obtain ⟨hfree, ⟨⟩⟩ := Option.ite_none_right_eq_some.mp hs
    have hglob : s.glob = false := Bool.eq_false_iff.mpr fun hg => by
      simpa [hpc, MainPc.told] using h.glob.mp hg
    exact { h with
      thread_holds := by simpa [hfree] using hthread
      main_holds := iff_of_true rfl rfl
      glob := by simp [hglob, MainPc.told]
      pending := by simp [hpending]
      cancel := by simp
      woken := fun hg => by simp [hglob] at hg
      exited := by simp }
  case setGlob =>
    cases hs
    exact { h with
      main_holds := hmain
      glob := by simp [MainPc.told]
      pending := by simp [hpending]
      cancel := by simp
      completed := fun _ => rfl
      woken := fun _ _ => .inl rfl
      exited := by simp }
  case unlock =>
    cases hs
    have hmtx : s.mtx = some .main := hmain.mpr rfl
    have hglob : s.glob = true := h.glob.mpr ⟨rfl, by rw [hpc]; rfl⟩
    exact { h with
      thread_holds := by simpa [hmtx] using hthread
      main_holds := by simp [MainPc.holds]
      glob := by simp [hglob, MainPc.told]
      pending := by simp [hpending]
      cancel := by simp
      woken := fun _ _ => .inr rfl
      exited := by simp }
  case signal =>
    cases hs
    by_cases hwait : s.thread = .waiting
    · simp only [if_pos hwait]
      exact inv_signaled (inv_wake h hwait) hpc (by simp)
    · simp only [if_neg hwait]
      exact inv_signaled h hpc hwait

theorem inv_step {a : Act} (h : Inv mode s) (hs : step mode s a = some s') : Inv mode s' := by
  cases a with
  | thread => exact inv_thread h hs
  | canceled => exact inv_canceled h hs
  | spurious =>
    obtain ⟨hpc, ⟨⟩⟩ := Option.ite_none_right_eq_some.mp hs
    exact inv_wake h hpc
  | main => exact inv_main h hs

theorem inv_of_reachable (hs : (machine mode).Reachable s) : Inv mode s := by
  refine hs.invariant (I := Inv mode) ?_ fun _ _ _ h ha => inv_step h ha
  rintro _ rfl
  exact inv_start

/-! ## The end -/

def ThreadPc.rank : ThreadPc → ℕ
  | malloc => 9
  | printf => 8
  | lock => 7
  | test => 6
  | waiting => 5
  | relock canceled => if canceled then 3 else 7
  | completed => 4
  | free _ => 2
  | unlock _ => 1
  | ended _ | endedEarly => 0

def MainPc.rank : MainPc → ℕ
  | start => 10
  | lock => 9
  | setGlob => 8
  | unlock => 7
  | signal => 6
  | join => 1
  | exited _ => 0

/-- A wake-up without a signal costs the way back to the wait. -/
def cost (a : Act) : ℕ := if a = .spurious then 3 else 0

def weight (s : State) : ℕ := s.thread.rank + s.main.rank

theorem rank_thread (hs : threadStep s = some s') :
    s'.thread.rank < s.thread.rank ∧ s'.main = s.main := by
  cases hpc : s.thread <;> simp only [threadStep, hpc] at hs
  case lock =>
    obtain ⟨-, ⟨⟩⟩ := Option.ite_none_right_eq_some.mp hs
    exact ⟨by simp [ThreadPc.rank], rfl⟩
  case test => split_ifs at hs <;> cases hs <;> exact ⟨by simp [ThreadPc.rank], rfl⟩
  case relock c =>
    obtain ⟨-, ⟨⟩⟩ := Option.ite_none_right_eq_some.mp hs
    cases c <;> exact ⟨by simp [ThreadPc.rank], rfl⟩
  case malloc | printf | completed | free | unlock =>
    cases hs
    exact ⟨by simp [ThreadPc.rank], rfl⟩
  case waiting | ended | endedEarly => cases hs

theorem rank_canceled (hs : cancelStep s = some s') :
    s'.thread.rank < s.thread.rank ∧ s'.main = s.main := by
  obtain ⟨-, hs⟩ := Option.ite_none_right_eq_some.mp hs
  split at hs
  · next hpc =>
    cases hs
    exact ⟨by simp [hpc, ThreadPc.rank], rfl⟩
  · next hpc =>
    cases hs
    exact ⟨by simp [hpc, ThreadPc.rank], rfl⟩
  · next hpc =>
    cases hs
    exact ⟨by simp [hpc, ThreadPc.rank], rfl⟩
  · cases hs

theorem weight_main (hs : mainStep mode s = some s') : weight s' < weight s := by
  cases hpc : s.main <;> simp only [mainStep, hpc] at hs
  case start => cases mode <;> cases hs <;> simp [weight, hpc, MainPc.rank]
  case lock =>
    obtain ⟨-, ⟨⟩⟩ := Option.ite_none_right_eq_some.mp hs
    simp [weight, hpc, MainPc.rank]
  case setGlob | unlock =>
    cases hs
    simp [weight, hpc, MainPc.rank]
  case signal =>
    cases hs
    by_cases hwait : s.thread = .waiting
    · simp [weight, hpc, hwait, MainPc.rank, ThreadPc.rank]
    · simp [weight, hpc, hwait, MainPc.rank]
  case join =>
    split at hs
    · cases hs
      simp [weight, hpc, MainPc.rank]
    · cases hs
      simp [weight, hpc, MainPc.rank]
    · cases hs
  case exited => cases hs

theorem weight_step {a : Act} (hs : step mode s a = some s') :
    weight s' < weight s + cost a := by
  cases a with
  | thread =>
    obtain ⟨hlt, hmain⟩ := rank_thread hs
    rw [weight, weight, hmain]
    omega
  | canceled =>
    obtain ⟨hlt, hmain⟩ := rank_canceled hs
    rw [weight, weight, hmain]
    omega
  | spurious =>
    obtain ⟨hpc, ⟨⟩⟩ := Option.ite_none_right_eq_some.mp hs
    simp only [weight, hpc, ThreadPc.rank, cost, Bool.false_eq_true, if_true, if_false]
    omega
  | main => exact weight_main hs

/-- Both threads are through, and the mutex is free. The block of memory has been freed, once,
unless the thread was cancelled before it had set up its handler. -/
structure Done (mode : Mode) (s : State) : Prop where
  exited : s.main = .exited (mode = .cancel)
  mtx : s.mtx = none
  allocated : s.allocated = 1
  freed : s.freed = 1 ∨ (s.thread = .endedEarly ∧ mode = .cancel ∧ s.freed = 0)

/-- Whoever has the mutex can go on. -/
theorem mtx_of_stuck (h : Inv mode s) (hthread : threadStep s = none)
    (hmain : mainStep mode s = none) : s.mtx = none := by
  match hmtx : s.mtx with
  | none => rfl
  | some .thread =>
    have hholds := h.thread_holds.mp hmtx
    cases hpc : s.thread <;> simp [threadStep, hpc, ThreadPc.holds] at hthread hholds
    split_ifs at hthread
  | some .main =>
    have hholds := h.main_holds.mp hmtx
    cases hpc : s.main <;> simp [mainStep, hpc, MainPc.holds] at hmain hholds

theorem thread_of_stuck (hmtx : s.mtx = none) (hs : threadStep s = none) :
    s.thread = .waiting ∨ (∃ c, s.thread = .ended c) ∨ s.thread = .endedEarly := by
  cases hpc : s.thread <;> simp only [threadStep, hpc] at hs
  case waiting => exact .inl rfl
  case ended c => exact .inr (.inl ⟨c, rfl⟩)
  case endedEarly => exact .inr (.inr rfl)
  case lock | relock =>
    rw [if_pos hmtx] at hs
    cases hs
  case test => split_ifs at hs
  all_goals cases hs

/-- A thread that waits will be cancelled or woken. -/
theorem not_waiting_of_stuck (h : Inv mode s) (hcancel : cancelStep s = none)
    (hjoin : s.main = .join) : s.thread ≠ .waiting := by
  intro hwait
  cases mode with
  | cancel =>
    have hpending : s.pending = true := h.pending.mpr ⟨rfl, by simp [hjoin]⟩
    simp [cancelStep, hpending, hwait] at hcancel
  | signal =>
    have hglob : s.glob = true := h.glob.mpr ⟨rfl, by rw [hjoin]; rfl⟩
    simpa [hjoin] using h.woken hglob hwait

theorem main_of_stuck (h : Inv mode s) (hmtx : s.mtx = none) (hthread : threadStep s = none)
    (hcancel : cancelStep s = none) (hs : mainStep mode s = none) :
    ∃ c, s.main = .exited c := by
  cases hpc : s.main <;> simp only [mainStep, hpc] at hs
  case exited c => exact ⟨c, rfl⟩
  case start => cases mode <;> cases hs
  case lock =>
    rw [if_pos hmtx] at hs
    cases hs
  case join =>
    rcases thread_of_stuck hmtx hthread with ht | ⟨c, ht⟩ | ht
    · exact absurd ht (not_waiting_of_stuck h hcancel hpc)
    · simp [ht] at hs
    · simp [ht] at hs
  all_goals cases hs

/-- The thread was cancelled exactly if it was to be. -/
theorem Inv.canceled_eq (h : Inv mode s) {c : Bool} (hpc : s.main = .exited c) :
    c = decide (mode = .cancel) := by
  cases mode with
  | cancel =>
    rcases h.cancel rfl with hm | hm | hm <;> rw [hpc] at hm <;> cases hm
    rfl
  | signal =>
    by_contra hc
    have hc : c = true := by simpa using hc
    have hcanceled : s.thread.isCanceled = true := by
      rcases h.exited c hpc with ht | ⟨ht, -⟩
      · rw [ht, hc]
        rfl
      · rw [ht]
        rfl
    simpa using h.pending.mp (h.canceled hcanceled)

theorem done_of_stuck (h : Inv mode s) (hs : ∀ a, cost a = 0 → step mode s a = none) :
    Done mode s := by
  have hmtx := mtx_of_stuck h (hs .thread rfl) (hs .main rfl)
  obtain ⟨c, hpc⟩ := main_of_stuck h hmtx (hs .thread rfl) (hs .canceled rfl) (hs .main rfl)
  have hc := h.canceled_eq hpc
  have halloc := h.allocated
  have hfreed := h.freed
  rcases h.exited c hpc with ht | ⟨ht, hcanceled⟩
  · rw [ht] at halloc hfreed
    exact ⟨by rw [hpc, hc], hmtx, halloc, .inl hfreed⟩
  · rw [ht] at halloc hfreed
    have hmode : mode = .cancel := by simpa [hcanceled] using hc
    exact ⟨by rw [hpc, hc], hmtx, halloc, .inr ⟨ht, hmode, hfreed⟩⟩

/-- A run in which the request is acted upon in the first `printf()`. -/
def early : List Act := [.thread, .main, .canceled, .main]

/-- Every run comes to an end, but for wake-ups without a signal, with the mutex free; the thread
is cancelled if it is to be, and otherwise ends normally. Its memory is freed exactly once, with
one exception that does occur: a thread that is cancelled in its first `printf()` leaves it
allocated. At no time is it freed twice. -/
theorem thread_cleanup_releases (mode : Mode) :
    (machine mode).CompletesUpTo cost (Done mode) ∧
    (∀ s, (machine mode).Reachable s → s.freed ≤ s.allocated ∧ s.allocated ≤ 1) ∧
    ∃ s, (machine .cancel).exec start early = some s ∧ Done .cancel s ∧ s.freed = 0 := by
  refine ⟨?_, fun s hs => ?_, ?_⟩
  · refine Machine.completesUpTo_of_weight (Inv mode) weight cost ?_
      (fun _ _ _ h ha => inv_step h ha) (fun _ _ _ _ ha => weight_step ha) fun _ h hs =>
        done_of_stuck h hs
    rintro _ rfl
    exact inv_start
  · have h := inv_of_reachable hs
    rw [h.freed, h.allocated]
    cases s.thread <;> simp [ThreadPc.freed, ThreadPc.allocated]
  · exact ⟨_, rfl, ⟨rfl, rfl, rfl, .inr ⟨rfl, rfl, rfl⟩⟩, rfl⟩

end Tlpi.Threads.ThreadCleanup
