import Tlpi.Lib.Counting
import Tlpi.Lib.Machine
import Tlpi.Lib.Progress
import Mathlib.Tactic

/-! `threads/pthread_barrier_demo.c`: threads that pass the same barrier again and again.

The barrier lets all threads go when the last one arrives, and tells one of them, no matter which,
that it is the serial thread. The messages are in the log, the last one first. There are `n + 1`
threads, since `pthread_barrier_init()` fails for none. -/

namespace Tlpi.Threads.BarrierDemo
open Finset Lib

inductive Pc
  /-- At the test of the loop, and asleep. -/
  | sleep (j : ℕ)
  /-- About to call `pthread_barrier_wait()`. -/
  | call (j : ℕ)
  | waiting (j : ℕ)
  /-- Released, with the return value `PTHREAD_BARRIER_SERIAL_THREAD` or 0. -/
  | released (j : ℕ) (serial : Bool)
  | ended
  deriving DecidableEq

inductive Event (n : ℕ)
  /-- "Thread i about to wait on barrier j". -/
  | about (i : Fin (n + 1)) (j : ℕ)
  /-- "Thread i passed barrier j". -/
  | passed (i : Fin (n + 1)) (j : ℕ) (serial : Bool)
  deriving DecidableEq

structure State (n : ℕ) where
  pc : Fin (n + 1) → Pc
  log : List (Event n)
  /-- The main thread has joined all threads. -/
  exited : Bool

inductive Act (n : ℕ)
  | announce (i : Fin (n + 1))
  /-- If `i` is the last thread to arrive, `serial` is the serial thread. -/
  | arrive (i serial : Fin (n + 1))
  | print (i : Fin (n + 1))
  | finish (i : Fin (n + 1))
  | exit

def Pc.isWaiting : Pc → Bool
  | waiting _ => true
  | _ => false

def Pc.release (serial : Bool) : Pc → Pc
  | call j | waiting j => released j serial
  | pc => pc

variable {n : ℕ}

/-- Everybody at the barrier goes on. -/
def release (s : State n) (i serial : Fin (n + 1)) : State n :=
  { s with pc := fun k =>
      if k = i ∨ (s.pc k).isWaiting then (s.pc k).release (k = serial) else s.pc k }

def step (numBarriers : ℕ) (s : State n) : Act n → Option (State n)
  | .announce i =>
    match s.pc i with
    | .sleep j =>
      if j < numBarriers then
        some { s with pc := Function.update s.pc i (.call j), log := .about i j :: s.log }
      else none
    | _ => none
  | .arrive i serial =>
    match s.pc i with
    | .call j =>
      if #{k | (s.pc k).isWaiting} = n then
        if serial = i ∨ (s.pc serial).isWaiting then some (release s i serial) else none
      else some { s with pc := Function.update s.pc i (.waiting j) }
    | _ => none
  | .print i =>
    match s.pc i with
    | .released j serial =>
      some { s with
        pc := Function.update s.pc i (.sleep (j + 1)), log := .passed i j serial :: s.log }
    | _ => none
  | .finish i =>
    match s.pc i with
    | .sleep j =>
      if j < numBarriers then none else some { s with pc := Function.update s.pc i .ended }
    | _ => none
  | .exit =>
    if (∀ i, s.pc i = .ended) ∧ s.exited = false then some { s with exited := true } else none

def start (n : ℕ) : State n := ⟨fun _ => .sleep 0, [], false⟩

def machine (n numBarriers : ℕ) : Machine (State n) (Act n) where
  init s := s = start n
  step := step numBarriers

/-! ## The rounds -/

/-- Before a message about a barrier, every thread has got as far as that. -/
def Ready (log : List (Event n)) : Event n → Prop
  | .about _ j => ∀ i, ∀ j' < j, .about i j' ∈ log
  | .passed _ j _ => ∀ i, .about i j ∈ log

def Ordered : List (Event n) → Prop
  | [] => True
  | e :: log => Ready log e ∧ Ordered log

/-- The number of barriers that have let the thread go. -/
def Pc.round (numBarriers : ℕ) : Pc → ℕ
  | sleep j | call j | waiting j => j
  | released j _ => j + 1
  | ended => numBarriers

def Pc.announced : Pc → Bool
  | call _ | waiting _ => true
  | _ => false

/-- All threads have been let go by the same barriers, the first `g`. -/
structure Inv (numBarriers g : ℕ) (s : State n) : Prop where
  round : ∀ i, (s.pc i).round numBarriers = g
  le : g ≤ numBarriers
  announced : ∀ i, (s.pc i).announced = true → g < numBarriers
  active : ∃ i, (s.pc i).isWaiting = false
  about : ∀ i j, .about i j ∈ s.log ↔ j < g ∨ (j = g ∧ (s.pc i).announced = true)
  serial : ∀ j, #{i | .passed i j true ∈ s.log} + #{i | s.pc i = .released j true} =
    if j < g then 1 else 0
  passed : ∀ i j, (∃ b, .passed i j b ∈ s.log) ↔ j < g ∧ ∀ b, s.pc i ≠ .released j b
  unique : ∀ i j b b', .passed i j b ∈ s.log → .passed i j b' ∈ s.log → b = b'
  nodup : s.log.Nodup
  ordered : Ordered s.log
  exited : s.exited = true → ∀ i, s.pc i = .ended

variable {numBarriers g : ℕ} {s s' : State n}

theorem inv_start : Inv numBarriers 0 (start n) where
  round _ := rfl
  le := Nat.zero_le _
  announced i h := by simp [start, Pc.announced] at h
  active := ⟨0, rfl⟩
  about := by simp [start, Pc.announced]
  serial := by simp [start]
  passed := by simp [start]
  unique := by simp [start]
  nodup := List.nodup_nil
  ordered := trivial
  exited := by simp [start]

theorem Inv.not_exited (h : Inv numBarriers g s) (i : Fin (n + 1)) (hpc : s.pc i ≠ .ended) :
    s.exited ≠ true := fun he => hpc (h.exited he i)

/-- A thread goes from one place to another in the same round, neither released before nor
after. -/
theorem inv_move {i : Fin (n + 1)} {pc : Pc} (h : Inv numBarriers g s) (hpc : s.pc i ≠ .ended)
    (hround : pc.round numBarriers = g) (hann : pc.announced = true → g < numBarriers)
    (hsame : pc.announced = (s.pc i).announced)
    (hactive : ∃ k, (Function.update s.pc i pc k).isWaiting = false)
    (hold : ∀ j b, s.pc i ≠ .released j b) (hnew : ∀ j b, pc ≠ .released j b) :
    Inv numBarriers g { s with pc := Function.update s.pc i pc } where
  round k := by
    by_cases hk : k = i
    · subst hk
      simpa using hround
    · simpa [Function.update_of_ne hk] using h.round k
  le := h.le
  announced k hk := by
    by_cases hki : k = i
    · subst hki
      exact hann (by simpa using hk)
    · exact h.announced k (by simpa [Function.update_of_ne hki] using hk)
  active := hactive
  about k j := by
    by_cases hki : k = i
    · subst hki
      simpa [hsame] using h.about k j
    · simpa [Function.update_of_ne hki] using h.about k j
  serial j := by
    have hcard : #{k | Function.update s.pc i pc k = .released j true} =
        #{k | s.pc k = .released j true} :=
      card_update_of_iff (P := (· = Pc.released j true))
        (iff_of_false (hnew j true) (hold j true))
    exact hcard ▸ h.serial j
  passed k j := by
    by_cases hki : k = i
    · subst hki
      simpa [hold, hnew] using h.passed k j
    · simpa [Function.update_of_ne hki] using h.passed k j
  unique := h.unique
  nodup := h.nodup
  ordered := h.ordered
  exited he := absurd he (h.not_exited i hpc)

theorem inv_announce {i : Fin (n + 1)} (h : Inv numBarriers g s) (hpc : s.pc i = .sleep g)
    (hg : g < numBarriers) :
    Inv numBarriers g
      { s with pc := Function.update s.pc i (.call g), log := .about i g :: s.log } where
  round k := by
    by_cases hk : k = i
    · subst hk
      simp [Pc.round]
    · simpa [Function.update_of_ne hk] using h.round k
  le := h.le
  announced _ _ := hg
  active := ⟨i, by simp [Pc.isWaiting]⟩
  about k j := by
    by_cases hk : k = i
    · subst hk
      have hlog := h.about k j
      simp only [hpc, Pc.announced, Bool.false_eq_true, and_false, or_false] at hlog
      simp [hlog, Pc.announced, or_comm]
    · simpa [Function.update_of_ne hk, hk] using h.about k j
  serial j := by
    have hcard : #{k | Function.update s.pc i (.call g) k = .released j true} =
        #{k | s.pc k = .released j true} :=
      card_update_of_iff (P := (· = Pc.released j true)) (by simp [hpc])
    rw [hcard]
    simpa using h.serial j
  passed k j := by
    by_cases hk : k = i
    · subst hk
      simpa [hpc] using h.passed k j
    · simpa [Function.update_of_ne hk] using h.passed k j
  unique k j b b' := by simpa using h.unique k j b b'
  nodup := by
    refine List.nodup_cons.mpr ⟨fun hmem => ?_, h.nodup⟩
    simpa [hpc, Pc.announced] using (h.about i g).mp hmem
  ordered := ⟨fun k j hj => (h.about k j).mpr (.inl hj), h.ordered⟩
  exited he := absurd he (h.not_exited i (by simp [hpc]))

/-- The message of the serial thread takes the place of the thread itself. -/
theorem serial_print {i : Fin (n + 1)} {j : ℕ} {b : Bool} (hpc : s.pc i = .released j b)
    (hlog : ∀ b, .passed i j b ∉ s.log) (j' : ℕ) :
    #{k | .passed k j' true ∈ Event.passed i j b :: s.log} +
        #{k | Function.update s.pc i (.sleep (j + 1)) k = .released j' true} =
      #{k | .passed k j' true ∈ s.log} + #{k | s.pc k = .released j' true} := by
  by_cases hserial : j' = j ∧ b = true
  · obtain ⟨rfl, rfl⟩ := hserial
    have hcard : #{k | Function.update s.pc i (.sleep (j' + 1)) k = .released j' true} + 1 =
        #{k | s.pc k = .released j' true} :=
      card_update_of_not (P := (· = Pc.released j' true)) hpc (by simp)
    have hset : (univ.filter fun k => .passed k j' true ∈ Event.passed i j' true :: s.log) =
        insert i (univ.filter fun k => .passed k j' true ∈ s.log) := by
      ext k
      simp
    rw [hset, card_insert_of_notMem (by simpa using hlog true), ← hcard]
    omega
  · have hcard : #{k | Function.update s.pc i (.sleep (j + 1)) k = .released j' true} =
        #{k | s.pc k = .released j' true} := by
      refine card_update_of_iff (P := (· = Pc.released j' true)) (iff_of_false (by simp) ?_)
      rw [hpc, Pc.released.injEq]
      exact fun heq => hserial ⟨heq.1.symm, heq.2⟩
    have hset : (univ.filter fun k => .passed k j' true ∈ Event.passed i j b :: s.log) =
        univ.filter fun k => .passed k j' true ∈ s.log := by
      refine filter_congr fun k _ => ?_
      have hne : Event.passed k j' true ≠ .passed i j b := fun heq => by
        injection heq with _ hj hb
        exact hserial ⟨hj, hb.symm⟩
      rw [List.mem_cons, or_iff_right hne]
    rw [hset, hcard]

theorem inv_print {i : Fin (n + 1)} {j : ℕ} {b : Bool} (h : Inv numBarriers (j + 1) s)
    (hpc : s.pc i = .released j b) :
    Inv numBarriers (j + 1)
      { s with pc := Function.update s.pc i (.sleep (j + 1)), log := .passed i j b :: s.log } where
  round k := by
    by_cases hk : k = i
    · subst hk
      simp [Pc.round]
    · simpa [Function.update_of_ne hk] using h.round k
  le := h.le
  announced k hk := by
    by_cases hki : k = i
    · subst hki
      simp [Pc.announced] at hk
    · exact h.announced k (by simpa [Function.update_of_ne hki] using hk)
  active := ⟨i, by simp [Pc.isWaiting]⟩
  about k j' := by
    by_cases hk : k = i
    · subst hk
      simpa [hpc, Pc.announced] using h.about k j'
    · simpa [Function.update_of_ne hk] using h.about k j'
  serial j' := by
    refine (serial_print hpc (fun c hmem => ?_) j').trans (h.serial j')
    exact ((h.passed i j).mp ⟨c, hmem⟩).2 b hpc
  passed k j' := by
    by_cases hk : k = i
    · subst hk
      by_cases hj : j' = j
      · subst hj
        simp
      · have hpassed := h.passed k j'
        simp only [hpc, Pc.released.injEq, Ne.symm hj, false_and, ne_eq, not_false_eq_true,
          implies_true, and_true] at hpassed
        simp [hj, hpassed]
    · simpa [Function.update_of_ne hk, hk] using h.passed k j'
  unique k j' c c' hc hc' := by
    have hnone : ∀ c, .passed i j c ∉ s.log := fun c hmem =>
      ((h.passed i j).mp ⟨c, hmem⟩).2 b hpc
    rcases List.mem_cons.mp hc with heq | hmem <;> rcases List.mem_cons.mp hc' with heq' | hmem'
    · injection heq with _ _ hb
      injection heq' with _ _ hb'
      exact hb.trans hb'.symm
    · injection heq with hi hj _
      subst hi hj
      exact absurd hmem' (hnone c')
    · injection heq' with hi hj _
      subst hi hj
      exact absurd hmem (hnone c)
    · exact h.unique k j' c c' hmem hmem'
  nodup := by
    refine List.nodup_cons.mpr ⟨fun hmem => ?_, h.nodup⟩
    exact ((h.passed i j).mp ⟨b, hmem⟩).2 b hpc
  ordered := ⟨fun k => (h.about k j).mpr (.inl (Nat.lt_succ_self j)), h.ordered⟩
  exited he := absurd he (h.not_exited i (by simp [hpc]))

/-- The last thread finds all others at the barrier. -/
theorem waiting_of_card {i : Fin (n + 1)} (hi : (s.pc i).isWaiting = false)
    (hcard : #{k | (s.pc k).isWaiting} = n) (k : Fin (n + 1)) (hk : k ≠ i) :
    (s.pc k).isWaiting = true := by
  have hsub : (univ.filter fun k => (s.pc k).isWaiting) ⊆ univ.erase i := by
    intro k hmem
    refine mem_erase.mpr ⟨fun hki => ?_, mem_univ k⟩
    simp [hki, hi] at hmem
  have heq := eq_of_subset_of_card_le hsub (by simp [hcard])
  have hmem : k ∈ univ.filter fun k => (s.pc k).isWaiting := heq ▸ mem_erase.mpr ⟨hk, mem_univ k⟩
  exact (mem_filter.mp hmem).2

theorem exists_not_waiting {i : Fin (n + 1)} (hi : (s.pc i).isWaiting = false)
    (hcard : #{k | (s.pc k).isWaiting} ≠ n) : ∃ k ≠ i, (s.pc k).isWaiting = false := by
  by_contra hnone
  refine hcard ?_
  have hset : (univ.filter fun k => (s.pc k).isWaiting) = univ.erase i := by
    ext k
    rw [mem_filter, mem_erase, and_iff_right (mem_univ k), and_iff_left (mem_univ k)]
    constructor
    · rintro hk rfl
      simp [hi] at hk
    · intro hk
      by_contra hw
      exact hnone ⟨k, hk, Bool.eq_false_iff.mpr hw⟩
  rw [hset, card_erase_of_mem (mem_univ i)]
  simp

theorem inv_arrive {i : Fin (n + 1)} (h : Inv numBarriers g s) (hpc : s.pc i = .call g)
    (hcard : #{k | (s.pc k).isWaiting} ≠ n) :
    Inv numBarriers g { s with pc := Function.update s.pc i (.waiting g) } := by
  obtain ⟨k, hk, hwait⟩ := exists_not_waiting (by rw [hpc]; rfl) hcard
  refine inv_move h (by simp [hpc]) rfl (fun _ => h.announced i (by rw [hpc]; rfl)) ?_
    ⟨k, by rwa [Function.update_of_ne hk]⟩ (by simp [hpc]) (by simp)
  rw [hpc]
  rfl

/-- Everybody is at the barrier of this round. -/
theorem Inv.at_barrier {i : Fin (n + 1)} (h : Inv numBarriers g s) (hpc : s.pc i = .call g)
    (hcard : #{k | (s.pc k).isWaiting} = n) (k : Fin (n + 1)) :
    (k = i ∧ s.pc k = .call g) ∨ s.pc k = .waiting g := by
  by_cases hk : k = i
  · exact .inl ⟨hk, hk ▸ hpc⟩
  · have hwait := waiting_of_card (by rw [hpc]; rfl) hcard k hk
    have hround := h.round k
    cases hcase : s.pc k <;> simp [hcase, Pc.isWaiting, Pc.round] at hwait hround
    exact .inr (by rw [hround])

theorem release_pc {i serial : Fin (n + 1)} {k : Fin (n + 1)}
    (hk : (k = i ∧ s.pc k = .call g) ∨ s.pc k = .waiting g) :
    (release s i serial).pc k = .released g (k = serial) := by
  rcases hk with ⟨rfl, hk⟩ | hk <;> simp [release, hk, Pc.release, Pc.isWaiting]

theorem card_serial (serial : Fin (n + 1)) (g j : ℕ) :
    #{k | Pc.released g (decide (k = serial)) = .released j true} = if g = j then 1 else 0 := by
  split_ifs with hg
  · simp [hg, filter_eq']
  · simp [hg]

theorem inv_release {i serial : Fin (n + 1)} (h : Inv numBarriers g s) (hpc : s.pc i = .call g)
    (hcard : #{k | (s.pc k).isWaiting} = n) : Inv numBarriers (g + 1) (release s i serial) := by
  have hplace := h.at_barrier hpc hcard
  have hrel : ∀ k, (release s i serial).pc k = .released g (k = serial) :=
    fun k => release_pc (hplace k)
  have hann : ∀ k, (s.pc k).announced = true := fun k => by
    rcases hplace k with ⟨-, hk⟩ | hk <;> rw [hk] <;> rfl
  have hnot : ∀ k j b, s.pc k ≠ .released j b := fun k j b => by
    rcases hplace k with ⟨-, hk⟩ | hk <;> simp [hk]
  exact {
    round := fun k => by rw [hrel]; rfl
    le := h.announced i (hann i)
    announced := fun k hk => by simp [hrel, Pc.announced] at hk
    active := ⟨i, by rw [hrel]; rfl⟩
    about := fun k j => by
      have habout := h.about k j
      rw [hann k] at habout
      refine habout.trans ?_
      simp only [hrel, Pc.announced, Bool.false_eq_true, and_true, and_false, or_false]
      omega
    serial := fun j => by
      have hlog := h.serial j
      simp only [hnot, filter_false, card_empty, add_zero] at hlog
      simp only [hrel, card_serial]
      change #{k | .passed k j true ∈ s.log} + _ = _
      rw [hlog]
      split_ifs <;> omega
    passed := fun k j => by
      refine (h.passed k j).trans ?_
      simp only [hnot, hrel, ne_eq, not_false_eq_true, implies_true, and_true, Pc.released.injEq]
      constructor
      · exact fun hj => ⟨by omega, fun b hb => by omega⟩
      · rintro ⟨hj, hne⟩
        have : g ≠ j := fun heq => hne (decide (k = serial)) ⟨heq, rfl⟩
        omega
    unique := h.unique
    nodup := h.nodup
    ordered := h.ordered
    exited := fun he => absurd he (h.not_exited i (by simp [hpc])) }

theorem inv_step {a : Act n} (h : Inv numBarriers g s) (hs : step numBarriers s a = some s') :
    ∃ g', Inv numBarriers g' s' := by
  cases a with
  | announce i =>
    rw [step] at hs
    split at hs
    · next j hpc =>
      obtain ⟨hj, ⟨⟩⟩ := Option.ite_none_right_eq_some.mp hs
      have hround := h.round i
      rw [hpc] at hround
      subst hround
      exact ⟨_, inv_announce h hpc hj⟩
    · cases hs
  | arrive i serial =>
    rw [step] at hs
    split at hs
    · next j hpc =>
      have hround := h.round i
      rw [hpc] at hround
      subst hround
      split_ifs at hs with hcard hserial
      · cases hs
        exact ⟨_, inv_release h hpc hcard⟩
      · cases hs
        exact ⟨_, inv_arrive h hpc hcard⟩
    · cases hs
  | print i =>
    rw [step] at hs
    split at hs
    · next j b hpc =>
      cases hs
      have hround := h.round i
      rw [hpc] at hround
      subst hround
      exact ⟨_, inv_print h hpc⟩
    · cases hs
  | finish i =>
    rw [step] at hs
    split at hs
    · next j hpc =>
      obtain ⟨hj, ⟨⟩⟩ := Option.ite_none_left_eq_some.mp hs
      have hround := h.round i
      rw [hpc] at hround
      subst hround
      have hle := h.le
      refine ⟨_, inv_move h (by simp [hpc]) ?_ (by simp [Pc.announced])
        (by simp [hpc, Pc.announced])
        ⟨i, by simp [Pc.isWaiting]⟩ (by simp [hpc]) (by simp)⟩
      simp only [Pc.round] at hle ⊢
      omega
    · cases hs
  | exit =>
    obtain ⟨⟨hended, -⟩, ⟨⟩⟩ := Option.ite_none_right_eq_some.mp hs
    exact ⟨g, { h with exited := fun _ => hended }⟩

theorem inv_of_reachable (hs : (machine n numBarriers).Reachable s) :
    ∃ g, Inv numBarriers g s := by
  refine hs.invariant (I := fun s => ∃ g, Inv numBarriers g s) ?_
    fun _ _ _ ⟨_, h⟩ ha => inv_step h ha
  rintro _ rfl
  exact ⟨0, inv_start⟩

/-! ## The end -/

def Pc.rank (numBarriers : ℕ) : Pc → ℕ
  | sleep j => 4 * (numBarriers - j) + 1
  | call j => 4 * (numBarriers - j)
  | waiting j => 4 * (numBarriers - j) - 1
  | released j _ => 4 * (numBarriers - j) - 2
  | ended => 0

def weight (numBarriers : ℕ) (s : State n) : ℕ :=
  ∑ i, (s.pc i).rank numBarriers + if s.exited then 0 else 1

theorem weight_move {i : Fin (n + 1)} {pc : Pc} {log : List (Event n)}
    (hlt : pc.rank numBarriers < (s.pc i).rank numBarriers) :
    weight numBarriers { s with pc := Function.update s.pc i pc, log } < weight numBarriers s := by
  have hsum := sum_update (Pc.rank numBarriers) s.pc i pc
  simp only [weight]
  omega

theorem weight_release {i serial : Fin (n + 1)} (hg : g < numBarriers)
    (hplace : ∀ k, (k = i ∧ s.pc k = .call g) ∨ s.pc k = .waiting g) :
    weight numBarriers (release s i serial) < weight numBarriers s := by
  have hlt : ∑ k, ((release s i serial).pc k).rank numBarriers <
      ∑ k, (s.pc k).rank numBarriers := by
    refine sum_lt_sum_of_nonempty univ_nonempty fun k _ => ?_
    rw [release_pc (hplace k)]
    rcases hplace k with ⟨-, hk⟩ | hk <;> rw [hk] <;> simp only [Pc.rank] <;> omega
  have hexited : (release s i serial).exited = s.exited := rfl
  rw [weight, weight, hexited]
  omega

theorem weight_step {a : Act n} (h : Inv numBarriers g s) (hs : step numBarriers s a = some s') :
    weight numBarriers s' < weight numBarriers s := by
  cases a with
  | announce i =>
    rw [step] at hs
    split at hs
    · next j hpc =>
      obtain ⟨hj, ⟨⟩⟩ := Option.ite_none_right_eq_some.mp hs
      exact weight_move (by simp [hpc, Pc.rank])
    · cases hs
  | arrive i serial =>
    rw [step] at hs
    split at hs
    · next j hpc =>
      have hround := h.round i
      rw [hpc] at hround
      subst hround
      have hlt : j < numBarriers := h.announced i (by rw [hpc]; rfl)
      split_ifs at hs with hcard hserial
      · cases hs
        exact weight_release hlt (h.at_barrier hpc hcard)
      · cases hs
        refine weight_move ?_
        simp only [hpc, Pc.rank]
        omega
    · cases hs
  | print i =>
    rw [step] at hs
    split at hs
    · next j b hpc =>
      cases hs
      have hle := h.le
      have hround := h.round i
      rw [hpc, Pc.round] at hround
      refine weight_move ?_
      simp only [hpc, Pc.rank]
      omega
    · cases hs
  | finish i =>
    rw [step] at hs
    split at hs
    · next j hpc =>
      obtain ⟨hj, ⟨⟩⟩ := Option.ite_none_left_eq_some.mp hs
      exact weight_move (by simp [hpc, Pc.rank])
    · cases hs
  | exit =>
    obtain ⟨⟨-, hexited⟩, ⟨⟩⟩ := Option.ite_none_right_eq_some.mp hs
    simp [weight, hexited]

/-- The program has exited. Each thread has passed each barrier and said so once, and each barrier
has had exactly one serial thread. -/
structure Done (numBarriers : ℕ) (s : State n) : Prop where
  exited : s.exited = true
  nodup : s.log.Nodup
  passed : ∀ i, ∀ j < numBarriers, ∃! b, .passed i j b ∈ s.log
  serial : ∀ j < numBarriers, ∃! i, .passed i j true ∈ s.log

theorem pc_of_stuck (hs : (machine n numBarriers).Stuck s) (i : Fin (n + 1)) :
    (∃ j, s.pc i = .waiting j) ∨ s.pc i = .ended := by
  cases hpc : s.pc i with
  | sleep j =>
    have hannounce := hs (.announce i)
    have hfinish := hs (.finish i)
    simp only [machine, step, hpc] at hannounce hfinish
    split_ifs at hannounce hfinish
  | call j =>
    have harrive := hs (.arrive i i)
    simp only [machine, step, hpc, true_or, if_true] at harrive
    split_ifs at harrive
  | waiting j => exact .inl ⟨j, rfl⟩
  | released j b =>
    have hprint := hs (.print i)
    simp [machine, step, hpc] at hprint
  | ended => exact .inr rfl

theorem ended_of_stuck (h : Inv numBarriers g s) (hs : (machine n numBarriers).Stuck s) :
    g = numBarriers ∧ ∀ i, s.pc i = .ended := by
  obtain ⟨i, hi⟩ := h.active
  have hended : s.pc i = .ended := by
    rcases pc_of_stuck hs i with ⟨j, hj⟩ | hj
    · simp [hj, Pc.isWaiting] at hi
    · exact hj
  have hg : g = numBarriers := by
    have hround := h.round i
    rw [hended] at hround
    exact hround.symm
  refine ⟨hg, fun k => ?_⟩
  rcases pc_of_stuck hs k with ⟨j, hj⟩ | hj
  · -- whoever waits has a barrier before them
    have hlt := h.announced k (by rw [hj]; rfl)
    omega
  · exact hj

theorem done_of_stuck (h : Inv numBarriers g s) (hs : (machine n numBarriers).Stuck s) :
    Done numBarriers s := by
  obtain ⟨rfl, hended⟩ := ended_of_stuck h hs
  refine ⟨?_, h.nodup, fun i j hj => ?_, fun j hj => ?_⟩
  · by_contra hexited
    have hexit := hs .exit
    simp [machine, step, hended, hexited] at hexit
  · obtain ⟨b, hb⟩ := (h.passed i j).mpr ⟨hj, by simp [hended]⟩
    exact ⟨b, hb, fun b' hb' => h.unique i j b' b hb' hb⟩
  · have hserial := h.serial j
    simp only [hended, reduceCtorEq, filter_false, card_empty, add_zero, if_pos hj] at hserial
    obtain ⟨i, hi⟩ := card_eq_one.mp hserial
    refine ⟨i, ?_, fun k hk => ?_⟩
    · have hmem : i ∈ univ.filter fun k => .passed k j true ∈ s.log := hi ▸ mem_singleton_self i
      exact (mem_filter.mp hmem).2
    · have hmem : k ∈ univ.filter fun k => .passed k j true ∈ s.log :=
        mem_filter.mpr ⟨mem_univ k, hk⟩
      rw [hi] at hmem
      exact mem_singleton.mp hmem

/-- Whatever the schedule and the choice of the serial threads, the program comes to its end with
every thread past every barrier. No thread says that it has passed a barrier, or goes on to the
next one, before all threads have got to that barrier. -/
theorem barrier_demo_completes (n numBarriers : ℕ) :
    (machine n numBarriers).Completes (Done numBarriers) ∧
    ∀ s, (machine n numBarriers).Reachable s → Ordered s.log := by
  refine ⟨?_, fun s hs => ?_⟩
  · refine Machine.completes_of_weight (fun s => ∃ g, Inv numBarriers g s) (weight numBarriers) ?_
      (fun _ _ _ ⟨_, h⟩ ha => inv_step h ha) (fun _ _ _ ⟨_, h⟩ ha => weight_step h ha)
      fun _ ⟨_, h⟩ hs => done_of_stuck h hs
    rintro _ rfl
    exact ⟨0, inv_start⟩
  · obtain ⟨g, h⟩ := inv_of_reachable hs
    exact h.ordered

end Tlpi.Threads.BarrierDemo
