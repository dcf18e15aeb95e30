import Mathlib.Tactic
import Tlpi.Lib.Counting
import Tlpi.Lib.Machine

/-! `threads/thread_multijoin.c`: `main()` joins its threads in the order in which they terminate.
Every access to a shared variable, every operation on the mutex and every signal is a step of its
own; a signal that nobody waits for is lost, and `pthread_cond_wait()` may return without one. -/

namespace Tlpi.Threads.Multijoin
open Finset Lib

/-- `enum tstate` -/
inductive TState
  | alive
  | terminated
  | joined
  deriving DecidableEq

/-- Places of a thread. -/
inductive Thr
  | uncreated
  /-- Before `pthread_mutex_lock()`. -/
  | running
  /-- `numUnjoined++` -/
  | increment
  /-- `thread[idx].state = TS_TERMINATED` -/
  | setState
  | unlock
  | signal
  | returned
  deriving DecidableEq

inductive Main (n : ℕ)
  | start
  | usageErr
  | create (k : ℕ)
  /-- `getInt()` or `pthread_create()` has failed. -/
  | errExit
  /-- `totThreads = argc - 1` -/
  | setTot
  /-- `numLive = totThreads` -/
  | setLive
  | test
  | lock
  | testUnjoined
  /-- Blocked in `pthread_cond_wait()`. -/
  | waiting
  /-- Woken in `pthread_cond_wait()`, about to get the mutex back. -/
  | woken
  | scan (idx : ℕ)
  | join (idx : Fin n)
  /-- `thread[idx].state = TS_JOINED` -/
  | setJoined (idx : Fin n)
  /-- `numLive--` -/
  | decLive (idx : Fin n)
  /-- `numUnjoined--` -/
  | decUnjoined (idx : Fin n)
  | unlock
  | exited
  deriving DecidableEq

inductive Party (n : ℕ)
  | main
  | thread (i : Fin n)
  deriving DecidableEq

structure State (n : ℕ) where
  totThreads : ℤ
  numLive : ℤ
  numUnjoined : ℤ
  /-- The `state` fields of the array. -/
  tstate : Fin n → TState
  threadMutex : Option (Party n)
  thr : Fin n → Thr
  main : Main n
  /-- The threads with which `main()` has joined, in this order. -/
  joins : List (Fin n)

inductive Act (n : ℕ)
  | main
  | createFails
  | thread (i : Fin n)
  /-- `pthread_cond_wait()` returns without a signal. -/
  | spurious

variable {n : ℕ}

/-- `calloc()` gives entries that are 0, which is TS_ALIVE. -/
def initial (n : ℕ) : State n where
  totThreads := 0
  numLive := 0
  numUnjoined := 0
  tstate := fun _ => .alive
  threadMutex := none
  thr := fun _ => .uncreated
  main := .start
  joins := []

def goTo (s : State n) (i : Fin n) (t : Thr) : State n :=
  { s with thr := Function.update s.thr i t }

/-- The next step of thread `i`. -/
def threadFunc (s : State n) (i : Fin n) : Option (State n) :=
  match s.thr i with
  | .running =>
    if s.threadMutex = none then
      some { goTo s i .increment with threadMutex := some (.thread i) }
    else none
  | .increment => some { goTo s i .setState with numUnjoined := s.numUnjoined + 1 }
  | .setState => some { goTo s i .unlock with tstate := Function.update s.tstate i .terminated }
  | .unlock => some { goTo s i .signal with threadMutex := none }
  | .signal => some { goTo s i .returned with main := if s.main = .waiting then .woken else s.main }
  | .uncreated | .returned => none

def create (s : State n) (k : ℕ) : State n :=
  if h : k < n then
    { s with
      tstate := Function.update s.tstate ⟨k, h⟩ .alive
      thr := Function.update s.thr ⟨k, h⟩ .running
      main := .create (k + 1) }
  else { s with main := .setTot }

/-- One turn of the loop over the array; an index beyond the array would have no meaning. -/
def scan (s : State n) (idx : ℕ) : Option (State n) :=
  if idx < s.totThreads then
    if h : idx < n then
      some { s with
        main := if s.tstate ⟨idx, h⟩ = .terminated then .join ⟨idx, h⟩ else .scan (idx + 1) }
    else none
  else some { s with main := .unlock }

def main (s : State n) : Option (State n) :=
  match s.main with
  | .start => some { s with main := if n = 0 then .usageErr else .create 0 }
  | .create k => some (create s k)
  | .setTot => some { s with main := .setLive, totThreads := n }
  | .setLive => some { s with main := .test, numLive := s.totThreads }
  | .test => some { s with main := if s.numLive > 0 then .lock else .exited }
  | .lock | .woken =>
    if s.threadMutex = none then some { s with main := .testUnjoined, threadMutex := some .main }
    else none
  | .testUnjoined =>
    some (if s.numUnjoined = 0 then { s with main := .waiting, threadMutex := none }
      else { s with main := .scan 0 })
  | .scan idx => scan s idx
  | .join i =>
    if s.thr i = .returned then some { s with main := .setJoined i, joins := s.joins ++ [i] }
    else none
  | .setJoined i => some { s with main := .decLive i, tstate := Function.update s.tstate i .joined }
  | .decLive i => some { s with main := .decUnjoined i, numLive := s.numLive - 1 }
  | .decUnjoined i => some { s with main := .scan (i + 1), numUnjoined := s.numUnjoined - 1 }
  | .unlock => some { s with main := .test, threadMutex := none }
  | .usageErr | .errExit | .waiting | .exited => none

def step (s : State n) : Act n → Option (State n)
  | .main => main s
  | .createFails =>
    match s.main with
    | .create k => if k < n then some { s with main := .errExit } else none
    | _ => none
  | .thread i => if s.main = .errExit then none else threadFunc s i
  | .spurious => if s.main = .waiting then some { s with main := .woken } else none

def machine (n : ℕ) : Machine (State n) (Act n) where
  init s := s = initial n
  step := step

/-! ## The invariant -/

def Main.holds : Main n → Bool
  | .testUnjoined | .scan _ | .join _ | .setJoined _ | .decLive _ | .decUnjoined _
  | .unlock => true
  | _ => false

def Thr.holds : Thr → Bool
  | .increment | .setState | .unlock => true
  | _ => false

/-- The party is in a critical section. -/
def holds (pc : Main n) (thr : Fin n → Thr) : Party n → Bool
  | .main => pc.holds
  | .thread i => (thr i).holds

/-- What a thread has to do with its entry. -/
def Entry : Thr → TState → Prop
  | .uncreated, e | .running, e | .increment, e | .setState, e => e = .alive
  | .unlock, e | .signal, e => e = .terminated
  | .returned, e => e ≠ .alive

def terminated (s : State n) : ℕ := #{i | s.tstate i = .terminated}

def notJoined (s : State n) : ℕ := #{i | s.tstate i ≠ .joined}

/-- The threads that are counted and whose entries are not yet set. -/
def midway (s : State n) : ℕ := #{i | s.thr i = .setState}

/-- The threads whose entries are set to TS_JOINED and that are still counted in `numUnjoined`. -/
def Main.owedUnjoined : Main n → ℤ
  | .decLive _ | .decUnjoined _ => 1
  | _ => 0

def Starting (s : State n) (k : ℕ) : Prop :=
  (∀ i, i.1 < k ↔ s.thr i ≠ .uncreated) ∧ ∀ i, s.tstate i ≠ .joined

def Looping (s : State n) (owed : ℤ) : Prop :=
  (∀ i, s.thr i ≠ .uncreated) ∧ s.totThreads = n ∧ s.numLive = notJoined s + owed

/-- What holds at a place of `main()`. -/
def Place (s : State n) : Main n → Prop
  | .start | .usageErr => Starting s 0
  | .create k => Starting s k
  | .errExit => True
  | .setTot => Starting s n
  | .setLive => Starting s n ∧ s.totThreads = n
  | .test | .scan _ | .decUnjoined _ | .unlock => Looping s 0
  | .lock | .testUnjoined | .woken => Looping s 0 ∧ 0 < s.numLive
  | .waiting => Looping s 0 ∧ 0 < s.numLive ∧ ∀ i, s.thr i = .returned → s.tstate i = .joined
  | .join i => Looping s 0 ∧ s.tstate i = .terminated
  | .setJoined i => Looping s 0 ∧ s.tstate i = .terminated ∧ s.thr i = .returned
  | .decLive _ => Looping s 1
  | .exited => Looping s 0 ∧ s.numLive ≤ 0

structure Inv (s : State n) : Prop where
  mutex : ∀ p, s.threadMutex = some p ↔ holds s.main s.thr p = true
  entry : ∀ i, Entry (s.thr i) (s.tstate i)
  unjoined : s.numUnjoined = terminated s + midway s + s.main.owedUnjoined
  place : Place s s.main
  mem : ∀ i, i ∈ s.joins ↔ s.tstate i = .joined ∨ s.main = .setJoined i
  nodup : s.joins.Nodup

theorem Inv.place_at {s : State n} (h : Inv s) {pc : Main n} (hm : s.main = pc) : Place s pc :=
  hm ▸ h.place

theorem Inv.entry_at {s : State n} (h : Inv s) {i : Fin n} {t : Thr} (hi : s.thr i = t) :
    Entry t (s.tstate i) :=
  hi ▸ h.entry i

theorem inv_initial : Inv (initial n) where
  mutex p := by cases p <;> simp [initial, holds, Main.holds, Thr.holds]
  entry _ := rfl
  unjoined := by simp [initial, terminated, midway, Main.owedUnjoined]
  place := ⟨by simp [initial], by simp [initial]⟩
  mem := by simp [initial]
  nodup := .nil

section Mutex
variable {mutex : Option (Party n)} {p : Party n} {held held' : Party n → Bool}

theorem mutex_acquire (h : ∀ q, mutex = some q ↔ held q = true) (hfree : mutex = none)
    (hheld : ∀ q, held' q = true ↔ q = p ∨ held q = true) (q : Party n) :
    some p = some q ↔ held' q = true := by
  have hq : held q = false := by
    rw [← Bool.not_eq_true, ← h q, hfree]
    exact nofun
  simp [hheld, hq, eq_comm]

theorem mutex_release (h : ∀ q, mutex = some q ↔ held q = true) (hp : held p = true)
    (hheld : ∀ q, held' q = true ↔ q ≠ p ∧ held q = true) (q : Party n) :
    none = some q ↔ held' q = true := by
  refine iff_of_false nofun fun hq => ?_
  obtain ⟨hne, hq⟩ := (hheld q).mp hq
  have hpq := (h p).mpr hp
  rw [(h q).mpr hq, Option.some.injEq] at hpq
  exact hne hpq

end Mutex

/-! ## Weights

What is left to do. A round of the loop of `main()` is paid for by a thread that it joins, and the
way from a wake-up back to the wait by the thread that has signalled. -/

def Thr.weight : Thr → ℕ
  | .uncreated | .running => 7
  | .increment => 6
  | .setState => 5
  | .unlock => 4
  | .signal => 3
  | .returned => 0

/-- The scan will come to a thread with which it joins. -/
def Ahead (tstate : Fin n → TState) (idx : ℕ) : Prop := ∃ i, idx ≤ i.1 ∧ tstate i = .terminated

instance (tstate : Fin n → TState) (idx : ℕ) : Decidable (Ahead tstate idx) :=
  inferInstanceAs (Decidable (∃ i, idx ≤ i.1 ∧ tstate i = .terminated))

def Main.weight (tstate : Fin n → TState) : Main n → ℕ
  | .usageErr | .errExit | .exited => 0
  | .waiting => 5 * n + 2
  | .testUnjoined => 5 * n + 3
  | .lock | .woken => 5 * n + 4
  | .test => 5 * n + 5
  | .unlock | .setLive => 5 * n + 6
  | .setTot => 5 * n + 7
  | .create k => 5 * n + 8 + (n - k)
  | .start => 6 * n + 9
  | .scan idx => 5 * (n - idx) + if Ahead tstate idx then 1 else 5 * n + 7
  | .join i => 5 * (n - i)
  | .setJoined i => 5 * (n - i) - 1
  | .decLive i => 5 * n + 4 + 5 * (n - i)
  | .decUnjoined i => 5 * n + 3 + 5 * (n - i)

/-! ## Steps of a thread -/

section Thread
variable {s s' : State n} {i : Fin n} {t : Thr} {e : TState}

theorem starting_thread {k : ℕ} (h : Starting s k) (hthr : s'.thr = Function.update s.thr i t)
    (hi : s.thr i ≠ .uncreated) (ht : t ≠ .uncreated)
    (hjoined : ∀ j, s'.tstate j = .joined ↔ s.tstate j = .joined) : Starting s' k := by
  refine ⟨fun j => ?_, fun j => by rw [ne_eq, hjoined]; exact h.2 j⟩
  rw [hthr]
  by_cases hj : j = i
  · subst hj
    rw [Function.update_self]
    exact iff_of_true ((h.1 j).mpr hi) ht
  · rw [Function.update_of_ne hj]
    exact h.1 j

theorem looping_thread {owed : ℤ} (h : Looping s owed)
    (hthr : s'.thr = Function.update s.thr i t) (ht : t ≠ .uncreated)
    (hjoined : ∀ j, s'.tstate j = .joined ↔ s.tstate j = .joined)
    (htot : s'.totThreads = s.totThreads) (hlive : s'.numLive = s.numLive) : Looping s' owed := by
  obtain ⟨hcreated, hn, hnum⟩ := h
  refine ⟨?_, htot.trans hn, ?_⟩
  · rw [hthr, Function.forall_update_iff s.thr fun _ t => t ≠ .uncreated]
    exact ⟨ht, fun j _ => hcreated j⟩
  · rw [hlive, hnum]
    simp only [notJoined, ne_eq, hjoined]

/-- A step of a thread leaves what `main()` knows, unless it returns while `main()` waits. -/
theorem place_thread {pc : Main n} (h : Place s pc) (hthr : s'.thr = Function.update s.thr i t)
    (hi : s.thr i ≠ .uncreated) (hret : s.thr i ≠ .returned) (ht : t ≠ .uncreated)
    (hjoined : ∀ j, s'.tstate j = .joined ↔ s.tstate j = .joined)
    (hterm : ∀ j, s.tstate j = .terminated → s'.tstate j = .terminated)
    (htot : s'.totThreads = s.totThreads) (hlive : s'.numLive = s.numLive)
    (hwait : t = .returned → pc ≠ .waiting) : Place s' pc := by
  have hstart : ∀ k, Starting s k → Starting s' k :=
    fun k hk => starting_thread hk hthr hi ht hjoined
  have hloop : ∀ owed, Looping s owed → Looping s' owed :=
    fun owed ho => looping_thread ho hthr ht hjoined htot hlive
  cases pc with
  | start => exact hstart 0 h
  | usageErr => exact hstart 0 h
  | create k => exact hstart k h
  | errExit => trivial
  | setTot => exact hstart n h
  | setLive => exact ⟨hstart n h.1, htot.trans h.2⟩
  | test => exact hloop 0 h
  | scan idx => exact hloop 0 h
  | decUnjoined j => exact hloop 0 h
  | unlock => exact hloop 0 h
  | decLive j => exact hloop 1 h
  | lock => exact ⟨hloop 0 h.1, hlive ▸ h.2⟩
  | testUnjoined => exact ⟨hloop 0 h.1, hlive ▸ h.2⟩
  | woken => exact ⟨hloop 0 h.1, hlive ▸ h.2⟩
  | exited => exact ⟨hloop 0 h.1, hlive ▸ h.2⟩
  | waiting =>
    refine ⟨hloop 0 h.1, hlive ▸ h.2.1, ?_⟩
    rw [hthr, Function.forall_update_iff s.thr fun j t => t = .returned → s'.tstate j = .joined]
    exact ⟨fun hr => absurd rfl (hwait hr), fun j _ hj => (hjoined j).mpr (h.2.2 j hj)⟩
  | join j => exact ⟨hloop 0 h.1, hterm j h.2⟩
  | setJoined j =>
    have hne : j ≠ i := fun hj => hret (hj ▸ h.2.2)
    refine ⟨hloop 0 h.1, hterm j h.2.1, ?_⟩
    rw [hthr, Function.update_of_ne hne]
    exact h.2.2

/-- The parties in a critical section, when a thread enters or leaves its own. -/
theorem holds_goTo {pc : Main n} {thr : Fin n → Thr} (p : Party n) :
    holds pc (Function.update thr i t) p = if p = .thread i then t.holds else holds pc thr p := by
  cases p with
  | main => rfl
  | thread j => by_cases hj : j = i <;> simp [holds, hj]

theorem terminated_thread (he : e = s.tstate i ∨ s.tstate i = .alive ∧ e = .terminated) (j : Fin n)
    (hj : s.tstate j = .terminated) : Function.update s.tstate i e j = .terminated := by
  by_cases hji : j = i
  · subst hji
    rcases he with rfl | ⟨halive, -⟩
    · rwa [Function.update_self]
    · rw [halive] at hj
      cases hj
  · rwa [Function.update_of_ne hji]

theorem joined_thread (he : e = s.tstate i ∨ s.tstate i = .alive ∧ e = .terminated) (j : Fin n) :
    Function.update s.tstate i e j = .joined ↔ s.tstate j = .joined := by
  by_cases hji : j = i
  · subst hji
    rcases he with rfl | ⟨halive, rfl⟩
    · rw [Function.update_self]
    · simp [halive]
  · rw [Function.update_of_ne hji]

/-- Thread `i` goes to `t` and its entry becomes `e`. -/
theorem inv_thread (h : Inv s) {mutex : Option (Party n)} {numUnjoined : ℤ}
    (hi : s.thr i ≠ .uncreated) (hret : s.thr i ≠ .returned) (ht : t ≠ .uncreated)
    (he : e = s.tstate i ∨ s.tstate i = .alive ∧ e = .terminated) (hentry : Entry t e)
    (hmutex : ∀ p, mutex = some p ↔ holds s.main (Function.update s.thr i t) p = true)
    (hunjoined : numUnjoined = #{j | Function.update s.tstate i e j = .terminated} +
      #{j | Function.update s.thr i t j = .setState} + s.main.owedUnjoined)
    (hwait : t = .returned → s.main ≠ .waiting) :
    Inv { goTo s i t with
      threadMutex := mutex
      numUnjoined := numUnjoined
      tstate := Function.update s.tstate i e } where
  mutex := hmutex
  entry j := by
    by_cases hj : j = i
    · subst hj
      simpa [goTo] using hentry
    · simpa [goTo, hj] using h.entry j
  unjoined := hunjoined
  place := place_thread h.place rfl hi hret ht (joined_thread he) (terminated_thread he) rfl rfl
    hwait
  mem j := by
    rw [joined_thread he]
    exact h.mem j
  nodup := h.nodup

/-- Thread `i` goes to `t` and its entry stays. -/
theorem inv_goTo (h : Inv s) {mutex : Option (Party n)} {numUnjoined : ℤ}
    (hi : s.thr i ≠ .uncreated) (hret : s.thr i ≠ .returned) (ht : t ≠ .uncreated)
    (hentry : Entry t (s.tstate i))
    (hmutex : ∀ p, mutex = some p ↔ holds s.main (Function.update s.thr i t) p = true)
    (hunjoined : numUnjoined = terminated s + #{j | Function.update s.thr i t j = .setState} +
      s.main.owedUnjoined)
    (hwait : t = .returned → s.main ≠ .waiting) :
    Inv { goTo s i t with threadMutex := mutex, numUnjoined := numUnjoined } := by
  have hinv : Inv { goTo s i t with
      threadMutex := mutex
      numUnjoined := numUnjoined
      tstate := Function.update s.tstate i (s.tstate i) } := by
    refine inv_thread h hi hret ht (.inl rfl) hentry hmutex ?_ hwait
    rwa [Function.update_eq_self]
  rwa [Function.update_eq_self] at hinv

theorem mutex_goTo (h : Inv s) (ht : t.holds = (s.thr i).holds) (p : Party n) :
    s.threadMutex = some p ↔ holds s.main (Function.update s.thr i t) p = true := by
  rw [h.mutex p, holds_goTo]
  split_ifs with hp
  · rw [hp, ht]
    rfl
  · rfl

theorem midway_of_ne (hi : s.thr i ≠ .setState) (ht : t ≠ .setState) :
    #{j | Function.update s.thr i t j = .setState} = midway s :=
  card_update_of_iff (P := (· = Thr.setState)) (iff_of_false ht hi)

/-- `main()` is woken. -/
theorem inv_woken (h : Inv s) (hm : s.main = .waiting) : Inv { s with main := .woken } := by
  have hplace := h.place_at hm
  exact {
    mutex := fun p => by
      rw [h.mutex p]
      cases p with
      | main => simp [holds, hm, Main.holds]
      | thread j => rfl
    entry := h.entry
    unjoined := by
      have hu := h.unjoined
      rwa [hm] at hu
    place := ⟨hplace.1, hplace.2.1⟩
    mem := fun j => by simpa [hm] using h.mem j
    nodup := h.nodup }

theorem inv_running (h : Inv s) (hi : s.thr i = .running) (hfree : s.threadMutex = none) :
    Inv { goTo s i .increment with threadMutex := some (.thread i) } := by
  have hentry := h.entry_at hi
  refine inv_goTo h (by simp [hi]) (by simp [hi]) (by simp) hentry ?_ ?_ (by simp)
  · refine mutex_acquire h.mutex hfree fun p => ?_
    rw [holds_goTo]
    split_ifs with hp <;> simp [hp, Thr.holds]
  · rw [midway_of_ne (by simp [hi]) (by simp)]
    exact h.unjoined

theorem inv_increment (h : Inv s) (hi : s.thr i = .increment) :
    Inv { goTo s i .setState with numUnjoined := s.numUnjoined + 1 } := by
  have hentry := h.entry_at hi
  refine inv_goTo h (by simp [hi]) (by simp [hi]) (by simp) hentry (mutex_goTo h (by rw [hi]; rfl))
    ?_ (by simp)
  · have hcard : #{j | Function.update s.thr i .setState j = .setState} = midway s + 1 :=
      card_update_of_new (P := (· = Thr.setState)) (by simp [hi]) rfl
    have hu := h.unjoined
    rw [hcard]
    push_cast
    omega

theorem inv_setState (h : Inv s) (hi : s.thr i = .setState) :
    Inv { goTo s i .unlock with tstate := Function.update s.tstate i .terminated } := by
  have hentry := h.entry_at hi
  refine inv_thread h (by simp [hi]) (by simp [hi]) (by simp) (.inr ⟨hentry, rfl⟩) rfl
    (mutex_goTo h (by rw [hi]; rfl)) ?_ (by simp)
  · have hmidway : #{j | Function.update s.thr i .unlock j = .setState} + 1 = midway s :=
      card_update_of_not (P := (· = Thr.setState)) hi (by simp)
    have hterm : #{j | Function.update s.tstate i .terminated j = .terminated} =
        terminated s + 1 :=
      card_update_of_new (P := (· = TState.terminated)) (by simp [show s.tstate i = _ from hentry])
        rfl
    have hu : (goTo s i .unlock).numUnjoined = _ := h.unjoined
    rw [hterm, hu]
    push_cast
    omega

theorem inv_unlock (h : Inv s) (hi : s.thr i = .unlock) :
    Inv { goTo s i .signal with threadMutex := none } := by
  have hentry := h.entry_at hi
  refine inv_goTo h (by simp [hi]) (by simp [hi]) (by simp) hentry ?_ ?_ (by simp)
  · refine mutex_release (p := .thread i) h.mutex (by simp [holds, hi, Thr.holds]) fun p => ?_
    rw [holds_goTo]
    split_ifs with hp <;> simp [hp, Thr.holds]
  · rw [midway_of_ne (by simp [hi]) (by simp)]
    exact h.unjoined

theorem inv_signal (h : Inv s) (hi : s.thr i = .signal) (hm : s.main ≠ .waiting) :
    Inv (goTo s i .returned) := by
  have hentry := h.entry_at hi
  refine inv_goTo h (by simp [hi]) (by simp [hi]) (by simp)
    (by rw [show s.tstate i = _ from hentry]; exact nofun) (mutex_goTo h (by rw [hi]; rfl)) ?_
    (fun _ => hm)
  · rw [midway_of_ne (by simp [hi]) (by simp)]
    exact h.unjoined

theorem inv_threadFunc (h : Inv s) (hs : threadFunc s i = some s') : Inv s' := by
  cases hi : s.thr i with
  | uncreated => simp [threadFunc, hi] at hs
  | running =>
    simp only [threadFunc, hi, Option.ite_none_right_eq_some, Option.some.injEq] at hs
    exact hs.2 ▸ inv_running h hi hs.1
  | increment =>
    simp only [threadFunc, hi, Option.some.injEq] at hs
    exact hs ▸ inv_increment h hi
  | setState =>
    simp only [threadFunc, hi, Option.some.injEq] at hs
    exact hs ▸ inv_setState h hi
  | unlock =>
    simp only [threadFunc, hi, Option.some.injEq] at hs
    exact hs ▸ inv_unlock h hi
  | signal =>
    simp only [threadFunc, hi, Option.some.injEq] at hs
    subst hs
    split_ifs with hm
    · exact inv_signal (inv_woken h hm) hi (by simp)
    · exact inv_signal h hi hm
  | returned => simp [threadFunc, hi] at hs

end Thread

/-! ## Steps of `main()` -/

section Main
variable {s s' : State n} {pc : Main n} {i : Fin n}

theorem holds_main {thr : Fin n → Thr} (m : Main n) (p : Party n) :
    holds pc thr p = if p = .main then pc.holds else holds m thr p := by
  cases p <;> simp [holds]

theorem mutex_main (h : Inv s) (hpc : pc.holds = s.main.holds) (p : Party n) :
    s.threadMutex = some p ↔ holds pc s.thr p = true := by
  rw [h.mutex p]
  cases p with
  | main => rw [holds, holds, hpc]
  | thread j => rfl

theorem mutex_main_acquire (h : Inv s) (hfree : s.threadMutex = none) (hpc : pc.holds = true)
    (p : Party n) : some .main = some p ↔ holds pc s.thr p = true := by
  refine mutex_acquire h.mutex hfree (fun q => ?_) p
  rw [holds_main s.main]
  split_ifs with hq <;> simp [hq, hpc]

theorem mutex_main_release (h : Inv s) (hm : s.main.holds = true) (hpc : pc.holds = false)
    (p : Party n) : none = some p ↔ holds pc s.thr p = true := by
  refine mutex_release (p := .main) h.mutex hm (fun q => ?_) p
  rw [holds_main s.main]
  split_ifs with hq <;> simp [hq, hpc]

theorem not_ahead_of_le {tstate : Fin n → TState} {idx : ℕ} (h : n ≤ idx) : ¬ Ahead tstate idx := by
  rintro ⟨i, hi, -⟩
  omega

/-- The scan passes an entry that is not TS_TERMINATED. -/
theorem ahead_succ {tstate : Fin n → TState} {idx : ℕ} (hidx : idx < n)
    (h : tstate ⟨idx, hidx⟩ ≠ .terminated) : Ahead tstate (idx + 1) ↔ Ahead tstate idx := by
  refine ⟨fun ⟨i, hi, ht⟩ => ⟨i, (Nat.le_succ idx).trans hi, ht⟩, fun ⟨i, hi, ht⟩ => ⟨i, ?_, ht⟩⟩
  rcases hi.lt_or_eq with hlt | heq
  · exact hlt
  · have hi' : i = ⟨idx, hidx⟩ := Fin.ext heq.symm
    exact absurd (hi' ▸ ht) h

theorem Main.weight_scan_succ {tstate : Fin n → TState} {idx : ℕ} (hidx : idx < n)
    (h : tstate ⟨idx, hidx⟩ ≠ .terminated) :
    (Main.scan (idx + 1)).weight tstate < (Main.scan idx).weight tstate := by
  simp only [Main.weight, ahead_succ hidx h]
  omega

theorem Inv.midway_eq_zero (h : Inv s) (hthread : ∀ i, s.threadMutex ≠ some (.thread i)) :
    midway s = 0 := by
  rw [midway, card_eq_zero, filter_eq_empty_iff]
  exact fun j _ hj => hthread j ((h.mutex (.thread j)).mpr (by rw [holds, hj]; rfl))

/-- The scan begins with a thread to join. -/
theorem Inv.ahead (h : Inv s) (hm : s.main = .testUnjoined) (hne : s.numUnjoined ≠ 0) :
    Ahead s.tstate 0 := by
  have hmutex := (h.mutex .main).mpr (by rw [hm]; rfl)
  have hmidway : midway s = 0 := h.midway_eq_zero (by simp [hmutex])
  have hterm : 0 < terminated s := by
    have hu := h.unjoined
    simp only [hm, Main.owedUnjoined, hmidway] at hu
    omega
  obtain ⟨i, hi⟩ := card_pos.mp hterm
  exact ⟨i, Nat.zero_le _, (mem_filter.mp hi).2⟩

/-- What a step of `main()` does. In the first case neither a thread nor an entry changes. -/
inductive MainStep (s : State n) : State n → Prop
  | goTo {pc : Main n} {mutex : Option (Party n)} {numLive totThreads : ℤ}
      (hmutex : ∀ p, mutex = some p ↔ holds pc s.thr p = true)
      (howed : pc.owedUnjoined = s.main.owedUnjoined)
      (hplace : Place { s with numLive := numLive, totThreads := totThreads } pc)
      (hpc : ∀ j, pc ≠ .setJoined j) (hm : ∀ j, s.main ≠ .setJoined j)
      (hweight : pc.weight s.tstate < s.main.weight s.tstate) :
      MainStep s { s with
        main := pc
        threadMutex := mutex
        numLive := numLive
        totThreads := totThreads }
  | create {k : ℕ} (hm : s.main = .create k) (hk : k < n) :
      MainStep s { s with
        tstate := Function.update s.tstate ⟨k, hk⟩ .alive
        thr := Function.update s.thr ⟨k, hk⟩ .running
        main := .create (k + 1) }
  | join {i : Fin n} (hm : s.main = .join i) (hi : s.thr i = .returned) :
      MainStep s { s with main := .setJoined i, joins := s.joins ++ [i] }
  | setJoined {i : Fin n} (hm : s.main = .setJoined i) :
      MainStep s { s with main := .decLive i, tstate := Function.update s.tstate i .joined }
  | decUnjoined {i : Fin n} (hm : s.main = .decUnjoined i) :
      MainStep s { s with main := .scan (i + 1), numUnjoined := s.numUnjoined - 1 }

/-- `main()` goes on without an operation on the mutex. -/
theorem mainStep_goTo (h : Inv s) {m : Main n} (hm : s.main = m) {numLive totThreads : ℤ}
    (hholds : pc.holds = m.holds) (howed : pc.owedUnjoined = m.owedUnjoined)
    (hplace : Place { s with numLive := numLive, totThreads := totThreads } pc)
    (hpc : ∀ j, pc ≠ .setJoined j) (hm' : ∀ j, m ≠ .setJoined j)
    (hweight : pc.weight s.tstate < m.weight s.tstate) :
    MainStep s { s with main := pc, numLive := numLive, totThreads := totThreads } := by
  subst hm
  exact .goTo (mutex_main h hholds) howed hplace hpc hm' hweight

theorem mainStep_create (h : Inv s) {k : ℕ} (hm : s.main = .create k) :
    MainStep s (create s k) := by
  have hplace : Starting s k := h.place_at hm
  unfold create
  split_ifs with hk
  · exact .create hm hk
  · refine mainStep_goTo h hm rfl rfl ⟨fun j => ?_, hplace.2⟩ (by simp) (by simp)
      (by simp [Main.weight]; omega)
    rw [← hplace.1 j]
    exact iff_of_true j.2 (j.2.trans_le (not_lt.mp hk))

theorem mainStep_scan (h : Inv s) {idx : ℕ} (hm : s.main = .scan idx)
    (hs : scan s idx = some s') : MainStep s s' := by
  have hplace : Looping s 0 := h.place_at hm
  unfold scan at hs
  split_ifs at hs with htot hidx hterm
  · cases hs
    have hahead : Ahead s.tstate idx := ⟨⟨idx, hidx⟩, le_rfl, hterm⟩
    exact mainStep_goTo h hm rfl rfl ⟨hplace, hterm⟩ (by simp) (by simp)
      (by simp [Main.weight, hahead])
  · cases hs
    exact mainStep_goTo h hm rfl rfl hplace (by simp) (by simp) (Main.weight_scan_succ hidx hterm)
  · cases hs
    have hn : n ≤ idx := by
      have := hplace.2.1
      omega
    refine mainStep_goTo h hm rfl rfl hplace (by simp) (by simp) ?_
    simp only [Main.weight, not_ahead_of_le hn, if_false]
    omega

/-- When `main()` waits, `numUnjoined` is 0, so that every thread that has returned is joined. -/
theorem mainStep_wait (h : Inv s) (hm : s.main = .testUnjoined) (hzero : s.numUnjoined = 0) :
    MainStep s { s with main := .waiting, threadMutex := none } := by
  have hplace := h.place_at hm
  refine .goTo (mutex_main_release h (by rw [hm]; rfl) rfl) (by rw [hm]; rfl)
    ⟨hplace.1, hplace.2, fun j hj => ?_⟩ (by simp) (by simp [hm]) (by simp [hm, Main.weight])
  have hterm : terminated s = 0 := by
    have hu := h.unjoined
    simp only [hm, Main.owedUnjoined, hzero] at hu
    omega
  have hne : s.tstate j ≠ .terminated := by
    rw [terminated, card_eq_zero, filter_eq_empty_iff] at hterm
    exact hterm (mem_univ j)
  have hentry := h.entry_at hj
  revert hne hentry
  cases s.tstate j <;> simp [Entry]

theorem mainStep_acquire (h : Inv s) (hm : s.main = .lock ∨ s.main = .woken)
    (hfree : s.threadMutex = none) :
    MainStep s { s with main := .testUnjoined, threadMutex := some .main } := by
  rcases hm with hm | hm
  all_goals
    have hplace := h.place_at hm
    exact .goTo (mutex_main_acquire h hfree rfl) (by rw [hm]; rfl) hplace (by simp) (by simp [hm])
      (by simp [hm, Main.weight])

theorem mainStep_main (h : Inv s) (hs : main s = some s') : MainStep s s' := by
  cases hm : s.main with
  | start =>
    simp only [main, hm, Option.some.injEq] at hs
    have hplace := h.place_at hm
    subst hs
    split_ifs
    · exact mainStep_goTo h hm rfl rfl hplace (by simp) (by simp) (by simp [Main.weight])
    · exact mainStep_goTo h hm rfl rfl hplace (by simp) (by simp) (by simp [Main.weight]; omega)
  | create k =>
    simp only [main, hm, Option.some.injEq] at hs
    exact hs ▸ mainStep_create h hm
  | setTot =>
    simp only [main, hm, Option.some.injEq] at hs
    have hplace := h.place_at hm
    exact hs ▸ mainStep_goTo h hm rfl rfl ⟨hplace, rfl⟩ (by simp) (by simp) (by simp [Main.weight])
  | setLive =>
    simp only [main, hm, Option.some.injEq] at hs
    have hplace := h.place_at hm
    obtain ⟨⟨hcreated, hnone⟩, htot⟩ := hplace
    subst hs
    refine mainStep_goTo h hm rfl rfl ⟨fun j => (hcreated j).mp j.2, htot, ?_⟩ (by simp) (by simp)
      (by simp [Main.weight])
    simp [notJoined, hnone, htot]
  | test =>
    simp only [main, hm, Option.some.injEq] at hs
    have hplace := h.place_at hm
    subst hs
    split_ifs with hpos
    · exact mainStep_goTo h hm rfl rfl ⟨hplace, hpos⟩ (by simp) (by simp) (by simp [Main.weight])
    · exact mainStep_goTo h hm rfl rfl ⟨hplace, not_lt.mp hpos⟩ (by simp) (by simp)
        (by simp [Main.weight])
  | lock =>
    simp only [main, hm, Option.ite_none_right_eq_some, Option.some.injEq] at hs
    exact hs.2 ▸ mainStep_acquire h (.inl hm) hs.1
  | woken =>
    simp only [main, hm, Option.ite_none_right_eq_some, Option.some.injEq] at hs
    exact hs.2 ▸ mainStep_acquire h (.inr hm) hs.1
  | testUnjoined =>
    simp only [main, hm, Option.some.injEq] at hs
    have hplace := h.place_at hm
    subst hs
    split_ifs with hzero
    · exact mainStep_wait h hm hzero
    · exact mainStep_goTo h hm rfl rfl hplace.1 (by simp) (by simp)
        (by simp [Main.weight, h.ahead hm hzero])
  | scan idx =>
    simp only [main, hm] at hs
    exact mainStep_scan h hm hs
  | join i =>
    simp only [main, hm, Option.ite_none_right_eq_some, Option.some.injEq] at hs
    exact hs.2 ▸ .join hm hs.1
  | setJoined i =>
    simp only [main, hm, Option.some.injEq] at hs
    exact hs ▸ .setJoined hm
  | decLive i =>
    simp only [main, hm, Option.some.injEq] at hs
    have hplace := h.place_at hm
    obtain ⟨hcreated, htot, hlive⟩ := hplace
    subst hs
    refine mainStep_goTo h hm rfl rfl ⟨hcreated, htot, ?_⟩ (by simp) (by simp)
      (by simp only [Main.weight]; omega)
    rw [hlive, add_sub_cancel_right, add_zero]
    rfl
  | decUnjoined i =>
    simp only [main, hm, Option.some.injEq] at hs
    exact hs ▸ .decUnjoined hm
  | unlock =>
    simp only [main, hm, Option.some.injEq] at hs
    have hplace := h.place_at hm
    exact hs ▸ .goTo (mutex_main_release h (by rw [hm]; rfl) rfl) (by rw [hm]; rfl) hplace
      (by simp) (by simp [hm]) (by simp [hm, Main.weight])
  | usageErr => simp [main, hm] at hs
  | errExit => simp [main, hm] at hs
  | waiting => simp [main, hm] at hs
  | exited => simp [main, hm] at hs

theorem mainStep_createFails (h : Inv s) (hs : step s .createFails = some s') : MainStep s s' := by
  cases hm : s.main with
  | create k =>
    simp only [step, hm, Option.ite_none_right_eq_some, Option.some.injEq] at hs
    exact hs.2 ▸ mainStep_goTo h hm rfl rfl trivial (by simp) (by simp) (by simp [Main.weight])
  | _ => simp [step, hm] at hs

theorem Starting.uncreated {k : ℕ} (h : Starting s k) (hk : k < n) :
    s.thr ⟨k, hk⟩ = .uncreated := by
  by_contra hne
  exact absurd ((h.1 ⟨k, hk⟩).mpr hne) (lt_irrefl k)

theorem inv_create (h : Inv s) {k : ℕ} (hm : s.main = .create k) (hk : k < n) :
    Inv { s with
      tstate := Function.update s.tstate ⟨k, hk⟩ .alive
      thr := Function.update s.thr ⟨k, hk⟩ .running
      main := .create (k + 1) } := by
  have hplace : Starting s k := h.place_at hm
  have hnew := hplace.uncreated hk
  have halive : s.tstate ⟨k, hk⟩ = .alive := h.entry_at hnew
  have hsame : Function.update s.tstate ⟨k, hk⟩ .alive = s.tstate := by
    rw [← halive, Function.update_eq_self]
  have hmidway : #{j | Function.update s.thr ⟨k, hk⟩ .running j = .setState} = midway s :=
    midway_of_ne (by simp [hnew]) (by simp)
  have hholds : ∀ j, (Function.update s.thr ⟨k, hk⟩ .running j).holds = (s.thr j).holds := by
    rw [Function.forall_update_iff s.thr fun j t => t.holds = (s.thr j).holds]
    exact ⟨by rw [hnew]; rfl, fun _ _ => rfl⟩
  rw [hsame]
  exact {
    mutex := fun p => by
      rw [h.mutex p]
      cases p with
      | main => simp [holds, hm, Main.holds]
      | thread j => simp only [holds, hholds]
    entry := by
      rw [Function.forall_update_iff s.thr fun j t => Entry t (s.tstate j)]
      exact ⟨halive, fun j _ => h.entry j⟩
    unjoined := by
      have hu := h.unjoined
      rw [hm] at hu
      rw [midway, hmidway]
      exact hu
    place := by
      refine ⟨fun j => ?_, hplace.2⟩
      by_cases hj : j = ⟨k, hk⟩
      · simp [hj]
      · have hne : j.1 ≠ k := fun he => hj (Fin.ext he)
        change _ ↔ Function.update s.thr ⟨k, hk⟩ .running j ≠ .uncreated
        rw [Function.update_of_ne hj, ← hplace.1 j]
        omega
    mem := fun j => by simpa [hm] using h.mem j
    nodup := h.nodup }

theorem inv_join (h : Inv s) (hm : s.main = .join i) (hi : s.thr i = .returned) :
    Inv { s with main := .setJoined i, joins := s.joins ++ [i] } := by
  have hplace := h.place_at hm
  have hnew : i ∉ s.joins := by simp [h.mem, hm, hplace.2]
  exact {
    mutex := mutex_main (s := s) h (by rw [hm]; rfl)
    entry := h.entry
    unjoined := h.unjoined.trans (by rw [hm]; rfl)
    place := ⟨hplace.1, hplace.2, hi⟩
    mem := fun j => by simp [h.mem, hm, eq_comm]
    nodup := h.nodup.append (List.nodup_singleton i) (List.disjoint_singleton.mpr hnew) }

theorem inv_setJoined (h : Inv s) (hm : s.main = .setJoined i) :
    Inv { s with main := .decLive i, tstate := Function.update s.tstate i .joined } := by
  have hplace := h.place_at hm
  obtain ⟨⟨hcreated, htot, hlive⟩, hterm, hret⟩ := hplace
  have hcardTerm : #{j | Function.update s.tstate i .joined j = .terminated} + 1 = terminated s :=
    card_update_of_not (P := (· = TState.terminated)) hterm (by simp)
  have hcardLive : #{j | Function.update s.tstate i .joined j ≠ .joined} + 1 = notJoined s :=
    card_update_of_not (P := (· ≠ TState.joined)) (by simp [hterm]) (by simp)
  exact {
    mutex := mutex_main (s := s) h (by rw [hm]; rfl)
    entry := by
      rw [Function.forall_update_iff s.tstate fun j e => Entry (s.thr j) e]
      exact ⟨by rw [hret]; exact nofun, fun j _ => h.entry j⟩
    unjoined := by
      have hu := h.unjoined
      simp only [hm, Main.owedUnjoined, terminated, midway] at hu hcardTerm ⊢
      omega
    place := by
      refine ⟨hcreated, htot, ?_⟩
      simp only [notJoined] at hlive hcardLive ⊢
      omega
    mem := fun j => by
      by_cases hj : j = i
      · simp [hj, h.mem, hm]
      · simp [hj, h.mem, hm, Ne.symm hj]
    nodup := h.nodup }

theorem inv_decUnjoined (h : Inv s) (hm : s.main = .decUnjoined i) :
    Inv { s with main := .scan (i + 1), numUnjoined := s.numUnjoined - 1 } := by
  have hplace := h.place_at hm
  exact {
    mutex := mutex_main (s := s) h (by rw [hm]; rfl)
    entry := h.entry
    unjoined := by
      have hu := h.unjoined
      simp only [hm, Main.owedUnjoined, terminated, midway] at hu ⊢
      omega
    place := hplace
    mem := fun j => by simpa [hm] using h.mem j
    nodup := h.nodup }

theorem inv_mainStep (h : Inv s) (hs : MainStep s s') : Inv s' := by
  cases hs with
  | goTo hmutex howed hplace hpc hm =>
    exact {
      mutex := hmutex
      entry := h.entry
      unjoined := h.unjoined.trans (by rw [howed]; rfl)
      place := by
        revert hplace
        cases ‹Main n› <;> exact id
      mem := fun j => by simpa [hpc j, hm j] using h.mem j
      nodup := h.nodup }
  | create hm hk => exact inv_create h hm hk
  | join hm hi => exact inv_join h hm hi
  | setJoined hm => exact inv_setJoined h hm
  | decUnjoined hm => exact inv_decUnjoined h hm

end Main

theorem inv_step {s s' : State n} (h : Inv s) (a : Act n) (hs : step s a = some s') : Inv s' := by
  cases a with
  | main => exact inv_mainStep h (mainStep_main h hs)
  | createFails => exact inv_mainStep h (mainStep_createFails h hs)
  | thread i =>
    simp only [step, Option.ite_none_left_eq_some] at hs
    exact inv_threadFunc h hs.2
  | spurious =>
    simp only [step, Option.ite_none_right_eq_some, Option.some.injEq] at hs
    exact hs.2 ▸ inv_woken h hs.1

theorem inv_of_reachable {s : State n} (hs : (machine n).Reachable s) : Inv s := by
  refine hs.invariant (I := Inv) ?_ fun _ a _ hi ha => inv_step hi a ha
  rintro _ rfl
  exact inv_initial

end Tlpi.Threads.Multijoin
