import Tlpi.Threads.Multijoin

/-! Progress of `threads/thread_multijoin.c`. Every step but a spurious wake-up lowers the number of
steps that are left at most, and as long as `main()` has not ended somebody can go on. -/

namespace Tlpi.Threads.Multijoin
open Finset Lib

variable {n : ℕ}

def stepsLeft (s : State n) : ℕ :=
  (5 * n + 6) * notJoined s + s.main.weight s.tstate + ∑ i, (s.thr i).weight

section Progress
variable {s s' : State n} {i : Fin n} {t : Thr}

/-- A step of a thread: its own weight pays for what `main()` may have to do again. -/
theorem stepsLeft_thread {tstate : Fin n → TState} {pc : Main n}
    (hthr : s'.thr = Function.update s.thr i t) (hmain : s'.main = pc) (hstate : s'.tstate = tstate)
    (hjoined : ∀ j, tstate j = .joined ↔ s.tstate j = .joined)
    (h : pc.weight tstate + t.weight < s.main.weight s.tstate + (s.thr i).weight) :
    stepsLeft s' < stepsLeft s := by
  have hsum := sum_update Thr.weight s.thr i t
  have hnot : notJoined s' = notJoined s := by simp only [notJoined, hstate, ne_eq, hjoined]
  rw [stepsLeft, hnot, hmain, hstate, hthr, stepsLeft]
  omega

theorem weight_of_not_holds {pc : Main n} (hpc : pc.holds = false)
    (tstate tstate' : Fin n → TState) : pc.weight tstate = pc.weight tstate' := by
  cases pc with
  | scan => cases hpc
  | _ => rfl

theorem stepsLeft_threadFunc (h : Inv s) (hs : threadFunc s i = some s') :
    stepsLeft s' < stepsLeft s := by
  cases hi : s.thr i with
  | uncreated => simp [threadFunc, hi] at hs
  | returned => simp [threadFunc, hi] at hs
  | running =>
    simp only [threadFunc, hi, Option.ite_none_right_eq_some, Option.some.injEq] at hs
    exact hs.2 ▸ stepsLeft_thread rfl rfl rfl (fun _ => .rfl) (by simp [hi, goTo, Thr.weight])
  | increment =>
    simp only [threadFunc, hi, Option.some.injEq] at hs
    exact hs ▸ stepsLeft_thread rfl rfl rfl (fun _ => .rfl) (by simp [hi, goTo, Thr.weight])
  | setState =>
    simp only [threadFunc, hi, Option.some.injEq] at hs
    subst hs
    have hentry := h.entry_at hi
    -- the mutex keeps `main()` out of the scan
    have hmain : s.main.holds = false := by
      have hthread := (h.mutex (.thread i)).mpr (by rw [holds, hi]; rfl)
      rw [← Bool.not_eq_true]
      intro hholds
      have hmain := (h.mutex .main).mpr hholds
      rw [hthread] at hmain
      cases hmain
    have hweight : s.main.weight (Function.update s.tstate i .terminated) =
      s.main.weight s.tstate := weight_of_not_holds hmain _ _
    exact stepsLeft_thread rfl rfl rfl (joined_thread (.inr ⟨hentry, rfl⟩))
      (by simp [hi, goTo, hweight, Thr.weight])
  | unlock =>
    simp only [threadFunc, hi, Option.some.injEq] at hs
    exact hs ▸ stepsLeft_thread rfl rfl rfl (fun _ => .rfl) (by simp [hi, goTo, Thr.weight])
  | signal =>
    simp only [threadFunc, hi, Option.some.injEq] at hs
    subst hs
    refine stepsLeft_thread rfl rfl rfl (fun _ => .rfl) ?_
    split_ifs with hm
    · simp [hi, hm, Thr.weight, Main.weight]
    · simp [hi, goTo, Thr.weight]

theorem stepsLeft_create (h : Inv s) {k : ℕ} (hm : s.main = .create k) (hk : k < n) :
    stepsLeft { s with
      tstate := Function.update s.tstate ⟨k, hk⟩ .alive
      thr := Function.update s.thr ⟨k, hk⟩ .running
      main := .create (k + 1) } < stepsLeft s := by
  have hplace : Starting s k := h.place_at hm
  have hnew := hplace.uncreated hk
  have hentry := h.entry_at hnew
  refine stepsLeft_thread rfl rfl rfl (joined_thread (.inl (Eq.symm hentry))) ?_
  simp only [hm, hnew, Main.weight, Thr.weight]
  omega

theorem stepsLeft_setJoined (h : Inv s) (hm : s.main = .setJoined i) :
    stepsLeft { s with main := .decLive i, tstate := Function.update s.tstate i .joined } <
      stepsLeft s := by
  have hplace := h.place_at hm
  have hcard : #{j | Function.update s.tstate i .joined j ≠ .joined} + 1 = notJoined s :=
    card_update_of_not (P := (· ≠ TState.joined)) (by simp [hplace.2.1]) (by simp)
  rw [stepsLeft, stepsLeft, ← hcard, hm]
  simp only [notJoined, Main.weight]
  have := i.2
  rw [mul_add]
  omega

theorem stepsLeft_lt_of_weight (hnot : notJoined s' = notJoined s) (hthr : s'.thr = s.thr)
    (hweight : s'.main.weight s'.tstate < s.main.weight s.tstate) :
    stepsLeft s' < stepsLeft s := by
  rw [stepsLeft, hnot, hthr, stepsLeft]
  omega

theorem stepsLeft_mainStep (h : Inv s) (hs : MainStep s s') : stepsLeft s' < stepsLeft s := by
  cases hs with
  | goTo _ _ _ _ _ hweight => exact stepsLeft_lt_of_weight rfl rfl hweight
  | create hm hk => exact stepsLeft_create h hm hk
  | @join i hm hi =>
    refine stepsLeft_lt_of_weight rfl rfl ?_
    have := i.2
    simp only [hm, Main.weight]
    omega
  | setJoined hm => exact stepsLeft_setJoined h hm
  | @decUnjoined i hm =>
    refine stepsLeft_lt_of_weight rfl rfl ?_
    have := i.2
    simp only [hm, Main.weight]
    split_ifs <;> omega

theorem stepsLeft_step (h : Inv s) {a : Act n} (ha : a ≠ .spurious) (hs : step s a = some s') :
    stepsLeft s' < stepsLeft s := by
  cases a with
  | main => exact stepsLeft_mainStep h (mainStep_main h hs)
  | createFails => exact stepsLeft_mainStep h (mainStep_createFails h hs)
  | thread i =>
    simp only [step, Option.ite_none_left_eq_some] at hs
    exact stepsLeft_threadFunc h hs.2
  | spurious => exact absurd rfl ha

end Progress

/-! ## Nobody is stuck -/

section Stuck
variable {s : State n}

/-- A thread that has not returned, and does not wait for the mutex, can go on. -/
theorem threadFunc_isSome {i : Fin n} (hcreated : s.thr i ≠ .uncreated)
    (hret : s.thr i ≠ .returned) (hrun : s.thr i = .running → s.threadMutex = none) :
    threadFunc s i ≠ none := by
  cases hi : s.thr i with
  | uncreated => exact absurd hi hcreated
  | running => simp [threadFunc, hi, hrun hi]
  | returned => exact absurd hi hret
  | _ => simp [threadFunc, hi]

/-- When nobody can go on, the mutex is not held by a thread. -/
theorem Inv.free_of_stuck (h : Inv s) (hthread : ∀ i, threadFunc s i = none)
    (hm : s.main.holds = false) : s.threadMutex = none := by
  cases hmutex : s.threadMutex with
  | none => rfl
  | some p =>
    have hholds := (h.mutex p).mp hmutex
    cases p with
    | main => exact absurd hholds (by simp [holds, hm])
    | thread i =>
      refine absurd (hthread i) (threadFunc_isSome ?_ ?_ ?_) <;>
        rintro hi <;> simp [holds, hi, Thr.holds] at hholds

theorem ended_of_stuck (h : Inv s) (hstuck : ∀ a, a ≠ .spurious → step s a = none) :
    s.main = .exited ∨ s.main = .errExit ∨ s.main = .usageErr := by
  by_cases herr : s.main = .errExit
  · exact .inr (.inl herr)
  have hthread : ∀ i, threadFunc s i = none := fun i => by
    have hi := hstuck (.thread i) (by simp)
    rwa [step, if_neg herr] at hi
  have hmain : main s = none := hstuck .main (by simp)
  cases hm : s.main with
  | exited => exact .inl rfl
  | errExit => exact .inr (.inl rfl)
  | usageErr => exact .inr (.inr rfl)
  | lock =>
    have hfree := h.free_of_stuck hthread (by rw [hm]; rfl)
    simp [main, hm, hfree] at hmain
  | woken =>
    have hfree := h.free_of_stuck hthread (by rw [hm]; rfl)
    simp [main, hm, hfree] at hmain
  | scan idx =>
    have hplace := h.place_at hm
    have htot : s.totThreads = n := hplace.2.1
    simp only [main, hm, scan, htot] at hmain
    split_ifs at hmain with hlt hidx
    omega
  | join i =>
    have hplace := h.place_at hm
    have hmutex := (h.mutex .main).mpr (by rw [hm]; rfl)
    have hret : s.thr i ≠ .returned := fun hret => by simp [main, hm, hret] at hmain
    refine absurd (hthread i) (threadFunc_isSome (hplace.1.1 i) hret fun hi => ?_)
    have hentry := h.entry i
    rw [hi, hplace.2] at hentry
    cases hentry
  | waiting =>
    have hplace := h.place_at hm
    obtain ⟨hloop, hpos, hret⟩ := hplace
    have hfree := h.free_of_stuck hthread (by rw [hm]; rfl)
    have hlive : 0 < notJoined s := by
      have := hloop.2.2
      omega
    obtain ⟨i, hi⟩ := card_pos.mp hlive
    have hne : s.thr i ≠ .returned := fun hi' => (mem_filter.mp hi).2 (hret i hi')
    exact absurd (hthread i) (threadFunc_isSome (hloop.1 i) hne fun _ => hfree)
  | _ => simp [main, hm] at hmain

end Stuck

/-- The thread has counted itself in `numUnjoined` and has not yet signalled. -/
def Thr.wakes : Thr → Bool
  | .setState | .unlock | .signal => true
  | _ => false

/-- The loop of `main()` is entered, so that `numLive` is set. -/
def Main.inLoop : Main n → Bool
  | .start | .usageErr | .create _ | .errExit | .setTot | .setLive => false
  | _ => true

section Claim
variable {s : State n}

theorem Inv.numUnjoined_of_free (h : Inv s) (hfree : s.threadMutex = none) :
    s.numUnjoined = terminated s := by
  have howed : s.main.owedUnjoined = 0 := by
    have hmain : s.main.holds = false := by
      rw [← Bool.not_eq_true]
      exact fun hholds => by simpa [hfree] using (h.mutex .main).mpr hholds
    revert hmain
    cases s.main <;> simp [Main.holds, Main.owedUnjoined]
  have hmidway := h.midway_eq_zero (by simp [hfree])
  have hu := h.unjoined
  rw [howed, hmidway] at hu
  simpa using hu

theorem Inv.looping (h : Inv s) (hin : s.main.inLoop = true) (hm : ∀ i, s.main ≠ .decLive i) :
    Looping s 0 := by
  have hplace := h.place
  revert hplace hin hm
  cases s.main <;> simp +contextual [Main.inLoop, Place]

theorem Inv.returned_of_mem (h : Inv s) {i : Fin n} (hi : i ∈ s.joins) : s.thr i = .returned := by
  rcases (h.mem i).mp hi with hjoined | hm
  · have hentry := h.entry i
    rw [hjoined] at hentry
    revert hentry
    cases s.thr i <;> simp [Entry]
  · have hplace := h.place_at hm
    exact hplace.2.2

theorem notJoined_pos : 0 < notJoined s ↔ ∃ i, s.tstate i ≠ .joined := by
  simp [notJoined, card_pos, Finset.Nonempty]

/-- While `main()` waits, a thread that has terminated is about to signal. -/
theorem Inv.wakes (h : Inv s) (hm : s.main = .waiting) (hpos : 0 < s.numUnjoined) :
    ∃ i, (s.thr i).wakes = true := by
  have hplace := h.place_at hm
  have hu := h.unjoined
  simp only [hm, Main.owedUnjoined] at hu
  by_cases hmidway : midway s = 0
  · have hterm : 0 < terminated s := by omega
    obtain ⟨i, hi⟩ := card_pos.mp hterm
    have hi := (mem_filter.mp hi).2
    refine ⟨i, ?_⟩
    have hentry := h.entry i
    have hret := hplace.2.2 i
    rw [hi] at hentry hret
    revert hentry hret
    cases s.thr i <;> simp [Entry, Thr.wakes]
  · obtain ⟨i, hi⟩ := card_pos.mp (Nat.pos_of_ne_zero hmidway)
    exact ⟨i, by rw [(mem_filter.mp hi).2]; rfl⟩

end Claim

/-- Every thread is joined once; the counters are right whenever the mutex is free, and no wake-up
is lost. -/
theorem thread_multijoin_joins {s : State n} (hs : (machine n).Reachable s) :
    (s.threadMutex = none → s.numUnjoined = #{i | s.tstate i = .terminated}) ∧
    (s.threadMutex = none → s.main.inLoop = true → s.numLive = #{i | s.tstate i ≠ .joined}) ∧
    s.joins.Nodup ∧ (∀ i ∈ s.joins, s.thr i = .returned) ∧
    (∀ i, s.main = .join i → s.tstate i = .terminated ∧ i ∉ s.joins) ∧
    (s.main = .test → (0 < s.numLive ↔ ∃ i, i ∉ s.joins)) ∧
    (s.main = .exited → ∀ i, i ∈ s.joins) ∧
    (s.main = .waiting → 0 < s.numUnjoined → ∃ i, (s.thr i).wakes = true) ∧
    (s.main = .waiting → ∃ i, s.tstate i ≠ .joined) ∧
    (∀ a s', a ≠ .spurious → step s a = some s' → stepsLeft s' < stepsLeft s) ∧
    ((∀ a, a ≠ .spurious → step s a = none) →
      s.main = .exited ∨ s.main = .errExit ∨ s.main = .usageErr) := by
  have h := inv_of_reachable hs
  refine ⟨h.numUnjoined_of_free, fun hfree hin => ?_, h.nodup, fun i => h.returned_of_mem,
    fun i hm => ?_, fun hm => ?_, fun hm i => ?_, h.wakes, fun hm => ?_,
    fun a s' ha => stepsLeft_step h ha, ended_of_stuck h⟩
  · have hlive := (h.looping hin fun i hm => ?_).2.2
    · rwa [add_zero] at hlive
    · have hmain := (h.mutex .main).mpr (by rw [hm]; rfl)
      rw [hfree] at hmain
      cases hmain
  · have hplace := h.place_at hm
    exact ⟨hplace.2, by simp [h.mem, hm, hplace.2]⟩
  · have hlive := (h.looping (by rw [hm]; rfl) (by simp [hm])).2.2
    have hmem : (∃ i, i ∉ s.joins) ↔ 0 < notJoined s := by
      simp only [h.mem, hm, reduceCtorEq, or_false, notJoined_pos, ne_eq]
    rw [hmem]
    omega
  · have hplace := h.place_at hm
    have hzero : ¬ 0 < notJoined s := by
      have := hplace.1.2.2
      have := hplace.2
      omega
    exact (h.mem i).mpr (.inl (by_contra fun hi => hzero (notJoined_pos.mpr ⟨i, hi⟩)))
  · have hplace := h.place_at hm
    rw [← notJoined_pos]
    have := hplace.1.2.2
    have := hplace.2.1
    omega

/-- Two threads; the second terminates first, before `main()` has set `numLive`, and its signal is
lost. -/
theorem thread_multijoin_joins_run : ∃ s : State 2, (machine 2).Reachable s ∧
    s.joins = [1, 0] ∧ s.main = .exited ∧ s.joins.Nodup ∧ ∀ i, i ∈ s.joins := by
  obtain ⟨s, hs, hp⟩ := Machine.exists_reachable_of_exec (M := machine 2) rfl
    (List.replicate 3 Act.main ++ List.replicate 5 (Act.thread 1) ++ List.replicate 17 Act.main ++
      List.replicate 5 (Act.thread 0) ++ List.replicate 11 Act.main)
    (fun s => s.joins = [1, 0] ∧ s.main = .exited) (by decide +kernel)
  obtain ⟨hjoins, hm⟩ := of_decide_eq_true hp
  have hall := thread_multijoin_joins hs
  exact ⟨s, hs, hjoins, hm, hall.2.2.1, hall.2.2.2.2.2.2.1 hm⟩

end Tlpi.Threads.Multijoin
