import Mathlib.Data.Fin.Basic
import Mathlib.Tactic
import Tlpi.Lib.Counting
import Tlpi.Lib.Machine

/-! The parent of `procexec/multi_SIGCHLD.c` and its children. Any number of terminations leave one
pending SIGCHLD, which is delivered only inside `sigsuspend()`; a step is one system call of the
parent, one termination, or the delivery of the signal. -/

namespace Tlpi.Procexec.MultiSigchld
open Finset Lib

inductive Child
  | unborn
  | running
  /-- Terminated, and not waited for. -/
  | zombie
  | reaped
  deriving DecidableEq

/-- Places in `sigchldHandler()`. -/
inductive Handler
  | waitpid
  /-- `waitpid()` has returned a PID; `numLiveChildren--` comes next. -/
  | decrement
  /-- Past the loop. -/
  | finish
  deriving DecidableEq

inductive Main
  | start
  | usageErr
  | sigaction
  | sigprocmask
  | fork (j : ℕ)
  /-- `fork()` has failed. -/
  | errExit
  | test
  | sigsuspend
  | handler (h : Handler)
  /-- `sigCnt++`, after the return of `sigsuspend()`. -/
  | count
  | report
  | exited
  deriving DecidableEq

structure State (n : ℕ) where
  main : Main
  numLiveChildren : ℤ
  sigCnt : ℤ
  /-- SIGCHLD is pending. -/
  pending : Bool
  child : Fin n → Child
  /-- The children that the handler has reported, in this order. -/
  reaped : List (Fin n)

inductive Act (n : ℕ)
  /-- The next step of the parent that is not one of the following. -/
  | parent
  | forkFails
  | waitpid (i : Fin n)
  | deliver
  | terminate (i : Fin n)

variable {n : ℕ}

def initial (n : ℕ) : State n where
  main := .start
  numLiveChildren := 0
  sigCnt := 0
  pending := false
  child := fun _ => .unborn
  reaped := []

/-- `fork()` for the argument `argv[j + 1]`, or the end of the loop. -/
def fork (s : State n) (j : ℕ) : State n :=
  if h : j < n then
    { s with main := .fork (j + 1), child := Function.update s.child ⟨j, h⟩ .running }
  else { s with main := .test }

def parent (s : State n) : Option (State n) :=
  match s.main with
  | .start =>
    some (if n = 0 then { s with main := .usageErr }
      else { s with main := .sigaction, numLiveChildren := n })
  | .sigaction => some { s with main := .sigprocmask }
  | .sigprocmask => some { s with main := .fork 0 }
  | .fork j => some (fork s j)
  | .test => some { s with main := if s.numLiveChildren > 0 then .sigsuspend else .report }
  | .handler .waitpid =>
    -- 0, or -1 with ECHILD: no child can be waited for now
    if ∀ i, s.child i ≠ .zombie then some { s with main := .handler .finish } else none
  | .handler .decrement =>
    some { s with main := .handler .waitpid, numLiveChildren := s.numLiveChildren - 1 }
  | .handler .finish => some { s with main := .count }
  | .count => some { s with main := .test, sigCnt := s.sigCnt + 1 }
  | .report => some { s with main := .exited }
  | .usageErr | .errExit | .sigsuspend | .exited => none

/-- `waitpid(-1, &status, WNOHANG)` returns the PID of child `i`. -/
def waitpid (s : State n) (i : Fin n) : State n :=
  { s with
    main := .handler .decrement
    child := Function.update s.child i .reaped
    reaped := s.reaped ++ [i] }

def step (s : State n) : Act n → Option (State n)
  | .parent => parent s
  | .forkFails =>
    match s.main with
    | .fork j => if j < n then some { s with main := .errExit } else none
    | _ => none
  | .waitpid i =>
    if s.main = .handler .waitpid ∧ s.child i = .zombie then some (waitpid s i) else none
  | .deliver =>
    if s.main = .sigsuspend ∧ s.pending = true then
      some { s with main := .handler .waitpid, pending := false }
    else none
  | .terminate i =>
    if s.child i = .running then
      some { s with child := Function.update s.child i .zombie, pending := true }
    else none

def machine (n : ℕ) : Machine (State n) (Act n) where
  init s := s = initial n
  step := step

/-! ## The invariant

A child that has terminated and is not reaped is announced by the pending bit, except while the
handler is in its loop, which cannot end before that child is reaped. -/

/-- The fork loop has not ended. -/
def Main.forking : Main → Bool
  | .start | .usageErr | .sigaction | .sigprocmask | .fork _ | .errExit => true
  | _ => false

/-- The handler is in its loop. -/
def Main.reaping : Main → Bool
  | .handler .waitpid | .handler .decrement => true
  | _ => false

/-- The children that are reaped and not yet subtracted from `numLiveChildren`. -/
def Main.owed : Main → ℤ
  | .handler .decrement => 1
  | _ => 0

def unreaped (s : State n) : ℕ := #{i | s.child i ≠ .reaped}

/-- How far the fork loop is. -/
def Forked (child : Fin n → Child) : Main → Prop
  | .start | .usageErr | .sigaction | .sigprocmask => ∀ i, child i = .unborn
  | .fork j => ∀ i, i.1 < j ↔ child i ≠ .unborn
  | .errExit => True
  | _ => ∀ i, child i ≠ .unborn

structure Inv (s : State n) : Prop where
  live : s.main ≠ .start → s.main ≠ .usageErr →
    s.numLiveChildren = unreaped s + s.main.owed
  forked : Forked s.child s.main
  nodup : s.reaped.Nodup
  mem : ∀ i, i ∈ s.reaped ↔ s.child i = .reaped
  announced : s.main.reaping = false → s.pending = false → ∀ i, s.child i ≠ .zombie
  suspended : s.main = .sigsuspend → 0 < s.numLiveChildren
  left : s.main = .report ∨ s.main = .exited → s.numLiveChildren ≤ 0

theorem Inv.live_at {s : State n} (h : Inv s) {pc : Main} (hm : s.main = pc)
    (hs : pc ≠ .start := by simp) (hu : pc ≠ .usageErr := by simp) :
    s.numLiveChildren = unreaped s + pc.owed := by
  subst hm
  exact h.live hs hu

theorem Inv.forked_at {s : State n} (h : Inv s) {pc : Main} (hm : s.main = pc) :
    Forked s.child pc :=
  hm ▸ h.forked

theorem Inv.announced_at {s : State n} (h : Inv s) {pc : Main} (hm : s.main = pc)
    (hr : pc.reaping = false := by rfl) : s.pending = false → ∀ i, s.child i ≠ .zombie :=
  h.announced (hm ▸ hr)

/-- The loop has not come to child `j`. -/
theorem unborn_of_forked {child : Fin n → Child} {j : ℕ} (h : Forked child (.fork j))
    (hj : j < n) : child ⟨j, hj⟩ = .unborn := by
  by_contra hne
  exact absurd ((h ⟨j, hj⟩).mpr hne) (lt_irrefl j)

theorem inv_initial : Inv (initial n) where
  live h := absurd rfl h
  forked _ := rfl
  nodup := .nil
  mem := by simp [initial]
  announced := by simp [initial]
  suspended := by simp [initial]
  left := by simp [initial]

/-- The parent moves to `pc`; no child changes. -/
theorem inv_move {s : State n} (h : Inv s) {pc : Main} {live sigCnt : ℤ} {pending : Bool}
    (hlive : pc ≠ .start → pc ≠ .usageErr → live = unreaped s + pc.owed)
    (hforked : Forked s.child pc)
    (hzombie : pc.reaping = false → pending = false → ∀ i, s.child i ≠ .zombie)
    (hsuspended : pc = .sigsuspend → 0 < live) (hleft : pc = .report ∨ pc = .exited → live ≤ 0) :
    Inv { s with main := pc, numLiveChildren := live, sigCnt := sigCnt, pending := pending } where
  live := hlive
  forked := hforked
  nodup := h.nodup
  mem := h.mem
  announced := hzombie
  suspended := hsuspended
  left := hleft

/-- The parent moves from `pc` to `pc'` outside the handler's loop; nothing is counted. -/
theorem inv_next {s : State n} (h : Inv s) {pc pc' : Main} {sigCnt : ℤ} (hm : s.main = pc)
    (hpc : pc ≠ .start ∧ pc ≠ .usageErr) (howed : pc'.owed = pc.owed)
    (hreaping : pc.reaping = false) (hforked : Forked s.child pc → Forked s.child pc')
    (hsuspended : pc' = .sigsuspend → 0 < s.numLiveChildren)
    (hleft : pc' = .report ∨ pc' = .exited → s.numLiveChildren ≤ 0) :
    Inv { s with main := pc', sigCnt := sigCnt } := by
  have hlive := h.live_at hm hpc.1 hpc.2
  have hzombie := h.announced_at hm hreaping
  refine inv_move h (fun _ _ => ?_) (hforked (h.forked_at hm)) (fun _ => hzombie) hsuspended hleft
  rw [hlive, howed]

/-- A child is created, or terminates. -/
theorem inv_child {s : State n} (h : Inv s) {i : Fin n} {pc : Main} {c : Child} {pending : Bool}
    (hi : s.child i ≠ .reaped) (hc : c ≠ .reaped)
    (hlive : pc ≠ .start → pc ≠ .usageErr → s.numLiveChildren = unreaped s + pc.owed)
    (hforked : Forked (Function.update s.child i c) pc)
    (hzombie : pc.reaping = false → pending = false → c ≠ .zombie ∧ ∀ k, s.child k ≠ .zombie)
    (hsuspended : pc = .sigsuspend → 0 < s.numLiveChildren)
    (hleft : pc = .report ∨ pc = .exited → s.numLiveChildren ≤ 0) :
    Inv { s with main := pc, child := Function.update s.child i c, pending := pending } where
  live hs hu := by
    have hcard : #{k | Function.update s.child i c k ≠ .reaped} = unreaped s :=
      card_update_of_iff (P := (· ≠ Child.reaped)) (iff_of_true hc hi)
    rw [unreaped, hcard]
    exact hlive hs hu
  forked := hforked
  nodup := h.nodup
  mem k := by
    by_cases hk : k = i
    · subst hk
      simp [h.mem, hi, hc]
    · simp [Function.update_of_ne hk, h.mem]
  announced hr hp k := by
    obtain ⟨hnew, hold⟩ := hzombie hr hp
    by_cases hk : k = i
    · subst hk
      simpa using hnew
    · simpa [Function.update_of_ne hk] using hold k
  suspended := hsuspended
  left := hleft

theorem inv_fork {s : State n} (h : Inv s) {j : ℕ} (hj : s.main = .fork j) : Inv (fork s j) := by
  have hforked := h.forked_at hj
  have hlive := h.live_at hj (by simp) (by simp)
  have hzombie := h.announced_at hj rfl
  unfold fork
  split_ifs with hn
  · have hunborn := unborn_of_forked hforked hn
    refine inv_child h (by simp [hunborn]) (by simp) (fun _ _ => hlive) (fun i => ?_)
      (fun _ hp => ⟨by simp, hzombie hp⟩) (by simp) (by simp)
    by_cases hi : i = ⟨j, hn⟩
    · simp [hi]
    · have hne : i.1 ≠ j := fun he => hi (Fin.ext he)
      rw [Function.update_of_ne hi, ← hforked i]
      omega
  · refine inv_move h (fun _ _ => hlive) (fun i => ?_) (fun _ => hzombie) (by simp) (by simp)
    exact (hforked i).mp (i.2.trans_le (not_lt.mp hn))

theorem inv_parent {s s' : State n} (h : Inv s) (hs : parent s = some s') : Inv s' := by
  cases hm : s.main with
  | start =>
    have hforked := h.forked_at hm
    have hall : (unreaped s : ℤ) = n := by simp [unreaped, hforked _]
    simp only [parent, hm, Option.some.injEq] at hs
    subst hs
    split_ifs
    · exact inv_move h (by simp) hforked (fun _ => h.announced_at hm rfl) (by simp) (by simp)
    · refine inv_move h (fun _ _ => ?_) hforked (fun _ => h.announced_at hm rfl) (by simp) (by simp)
      rw [hall]
      exact (add_zero _).symm
  | sigaction =>
    simp only [parent, hm, Option.some.injEq] at hs
    subst hs
    exact inv_next h hm (by simp) rfl rfl id (by simp) (by simp)
  | sigprocmask =>
    simp only [parent, hm, Option.some.injEq] at hs
    subst hs
    exact inv_next h hm (by simp) rfl rfl (fun hforked i => by simp [hforked i]) (by simp) (by simp)
  | fork j =>
    simp only [parent, hm, Option.some.injEq] at hs
    exact hs ▸ inv_fork h hm
  | test =>
    simp only [parent, hm, Option.some.injEq] at hs
    subst hs
    split_ifs with hpos
    · exact inv_next h hm (by simp) rfl rfl id (fun _ => hpos) (by simp)
    · exact inv_next h hm (by simp) rfl rfl id (by simp) (fun _ => not_lt.mp hpos)
  | handler place =>
    have hlive := h.live_at hm (by simp) (by simp)
    have hforked := h.forked_at hm
    cases place with
    | waitpid =>
      simp only [parent, hm, Option.ite_none_right_eq_some, Option.some.injEq] at hs
      obtain ⟨hnone, rfl⟩ := hs
      exact inv_move h (fun _ _ => hlive) hforked (fun _ _ => hnone) (by simp) (by simp)
    | decrement =>
      simp only [parent, hm, Option.some.injEq] at hs
      subst hs
      refine inv_move h (fun _ _ => ?_) hforked (by simp [Main.reaping]) (by simp) (by simp)
      simp only [Main.owed] at hlive ⊢
      omega
    | finish =>
      simp only [parent, hm, Option.some.injEq] at hs
      subst hs
      exact inv_next h hm (by simp) rfl rfl id (by simp) (by simp)
  | count =>
    simp only [parent, hm, Option.some.injEq] at hs
    subst hs
    exact inv_next h hm (by simp) rfl rfl id (by simp) (by simp)
  | report =>
    simp only [parent, hm, Option.some.injEq] at hs
    subst hs
    exact inv_next h hm (by simp) rfl rfl id (by simp) (fun _ => h.left (.inl hm))
  | usageErr => simp [parent, hm] at hs
  | errExit => simp [parent, hm] at hs
  | sigsuspend => simp [parent, hm] at hs
  | exited => simp [parent, hm] at hs

theorem Forked.congr {child child' : Fin n → Child} {pc : Main} (h : Forked child pc)
    (hiff : ∀ k, child' k = .unborn ↔ child k = .unborn) : Forked child' pc := by
  cases pc with
  | errExit => trivial
  | _ => simpa only [Forked, ne_eq, hiff] using h

theorem unborn_update {child : Fin n → Child} {i : Fin n} {c : Child} (hi : child i ≠ .unborn)
    (hc : c ≠ .unborn) (k : Fin n) :
    Function.update child i c k = .unborn ↔ child k = .unborn := by
  by_cases hk : k = i
  · simp [hk, hi, hc]
  · rw [Function.update_of_ne hk]

theorem unreaped_waitpid {s : State n} {i : Fin n} (hi : s.child i = .zombie) :
    unreaped (waitpid s i) + 1 = unreaped s :=
  card_update_of_not (P := (· ≠ Child.reaped)) (by simp [hi]) (by simp)

theorem inv_waitpid {s : State n} (h : Inv s) (hm : s.main = .handler .waitpid) {i : Fin n}
    (hi : s.child i = .zombie) : Inv (waitpid s i) := by
  have hlive := h.live_at hm (by simp) (by simp)
  have hforked := h.forked_at hm
  have hnew : i ∉ s.reaped := by simp [h.mem, hi]
  refine {
    live := fun _ _ => ?_
    forked := Forked.congr hforked (unborn_update (by simp [hi]) (by simp))
    nodup := h.nodup.append (List.nodup_singleton i) (List.disjoint_singleton.mpr hnew)
    mem := fun k => ?_
    announced := fun hr => by cases hr
    suspended := fun hp => by cases hp
    left := fun hp => by rcases hp with hp | hp <;> cases hp }
  · have hcard := unreaped_waitpid hi
    change s.numLiveChildren = unreaped (waitpid s i) + 1
    simp only [Main.owed] at hlive
    omega
  · by_cases hk : k = i
    · simp [waitpid, hk]
    · simp [waitpid, h.mem, hk]

theorem inv_terminate {s : State n} (h : Inv s) {i : Fin n} (hi : s.child i = .running) :
    Inv { s with child := Function.update s.child i .zombie, pending := true } :=
  inv_child h (by simp [hi]) (by simp) h.live
    (h.forked.congr (unborn_update (by simp [hi]) (by simp))) (by simp) h.suspended h.left

theorem inv_step {s s' : State n} (h : Inv s) (a : Act n) (hs : step s a = some s') : Inv s' := by
  cases a with
  | parent => exact inv_parent h hs
  | forkFails =>
    simp only [step] at hs
    split at hs
    · next j hm =>
      obtain ⟨-, rfl⟩ := Option.ite_none_right_eq_some.mp hs |>.imp_right Option.some.inj
      have hlive := h.live_at hm (by simp) (by simp)
      exact inv_move h (fun _ _ => hlive) trivial (fun _ => h.announced_at hm rfl) (by simp)
        (by simp)
    · cases hs
  | waitpid i =>
    simp only [step, Option.ite_none_right_eq_some, Option.some.injEq] at hs
    obtain ⟨⟨hm, hi⟩, rfl⟩ := hs
    exact inv_waitpid h hm hi
  | deliver =>
    simp only [step, Option.ite_none_right_eq_some, Option.some.injEq] at hs
    obtain ⟨⟨hm, -⟩, rfl⟩ := hs
    have hlive := h.live_at hm (by simp) (by simp)
    have hforked := h.forked_at hm
    exact inv_move h (fun _ _ => hlive) hforked (by simp [Main.reaping]) (by simp) (by simp)
  | terminate i =>
    simp only [step, Option.ite_none_right_eq_some, Option.some.injEq] at hs
    obtain ⟨hi, rfl⟩ := hs
    exact inv_terminate h hi

theorem inv_of_reachable {s : State n} (hs : (machine n).Reachable s) : Inv s := by
  refine hs.invariant (I := Inv) ?_ fun _ a _ hi hstep => inv_step hi a hstep
  rintro _ rfl
  exact inv_initial

/-! ## Runs end -/

/-- Bounds the steps that are left. A termination pays for its delivery and for the handler's loop
round that reaps the child. -/
def Child.weight : Child → ℕ
  | .unborn => 9
  | .running => 8
  | .zombie => 2
  | .reaped => 0

def Main.weight : Main → ℕ
  | .start => 6
  | .sigaction => 5
  | .sigprocmask => 4
  | .fork _ => 3
  | .test => 2
  | .sigsuspend => 1
  | .handler .waitpid => 5
  | .handler .decrement => 6
  | .handler .finish => 4
  | .count => 3
  | .report => 1
  | .usageErr | .errExit | .exited => 0

def stepsLeft (s : State n) : ℕ :=
  s.main.weight + 5 * s.pending.toNat + ∑ i, (s.child i).weight

theorem stepsLeft_parent {s s' : State n} (hforked : Forked s.child s.main)
    (hs : parent s = some s') : stepsLeft s' < stepsLeft s := by
  cases hm : s.main with
  | fork j =>
    rw [hm] at hforked
    simp only [parent, hm, Option.some.injEq, fork] at hs
    subst hs
    split_ifs with hj
    · have hunborn := unborn_of_forked hforked hj
      have hsum := sum_update Child.weight s.child ⟨j, hj⟩ .running
      rw [hunborn] at hsum
      simp only [stepsLeft, hm, Main.weight, Child.weight] at hsum ⊢
      omega
    · simp [stepsLeft, hm, Main.weight]
  | handler place =>
    cases place <;> simp only [parent, hm, Option.ite_none_right_eq_some, Option.some.injEq] at hs
    · simp [stepsLeft, hm, ← hs.2, Main.weight]
    · simp [stepsLeft, hm, ← hs, Main.weight]
    · simp [stepsLeft, hm, ← hs, Main.weight]
  | start | test =>
    simp only [parent, hm, Option.some.injEq] at hs
    subst hs
    split_ifs <;> simp [stepsLeft, hm, Main.weight]
  | sigaction | sigprocmask | count | report =>
    simp only [parent, hm, Option.some.injEq] at hs
    simp [stepsLeft, hm, ← hs, Main.weight]
  | _ => simp [parent, hm] at hs

theorem stepsLeft_step {s s' : State n} (h : Inv s) (a : Act n) (hs : step s a = some s') :
    stepsLeft s' < stepsLeft s := by
  cases a with
  | parent => exact stepsLeft_parent h.forked hs
  | forkFails =>
    simp only [step] at hs
    split at hs
    · next j hm =>
      obtain ⟨-, rfl⟩ := Option.ite_none_right_eq_some.mp hs |>.imp_right Option.some.inj
      simp [stepsLeft, hm, Main.weight]
    · cases hs
  | waitpid i =>
    simp only [step, Option.ite_none_right_eq_some, Option.some.injEq] at hs
    obtain ⟨⟨hm, hi⟩, rfl⟩ := hs
    have hsum := sum_update Child.weight s.child i .reaped
    rw [hi] at hsum
    simp only [stepsLeft, waitpid, hm, Main.weight, Child.weight] at hsum ⊢
    omega
  | deliver =>
    simp only [step, Option.ite_none_right_eq_some, Option.some.injEq] at hs
    obtain ⟨⟨hm, hp⟩, rfl⟩ := hs
    simp [stepsLeft, hm, hp, Main.weight]
  | terminate i =>
    simp only [step, Option.ite_none_right_eq_some, Option.some.injEq] at hs
    obtain ⟨hi, rfl⟩ := hs
    have hsum := sum_update Child.weight s.child i .zombie
    rw [hi] at hsum
    simp only [stepsLeft, Child.weight, Bool.toNat_true] at hsum ⊢
    omega

/-- The parent is never left waiting: without a next step the program has ended. -/
theorem ended_of_stuck {s : State n} (h : Inv s) (hstuck : ∀ a, step s a = none) :
    s.main = .exited ∨ s.main = .errExit ∨ s.main = .usageErr := by
  have hparent := hstuck .parent
  cases hm : s.main with
  | exited => exact .inl rfl
  | errExit => exact .inr (.inl rfl)
  | usageErr => exact .inr (.inr rfl)
  | sigsuspend =>
    exfalso
    have hforked := h.forked_at hm
    have hpending : s.pending = false := by
      have hdeliver := hstuck .deliver
      simpa [step, hm] using hdeliver
    have hreaped (i : Fin n) : s.child i = .reaped := by
      have hzombie := h.announced_at hm rfl hpending i
      have hrun : s.child i ≠ .running := by simpa [step] using hstuck (.terminate i)
      cases hi : s.child i with
      | unborn => exact absurd hi (hforked i)
      | running => exact absurd hi hrun
      | zombie => exact absurd hi hzombie
      | reaped => rfl
    have hlive := h.live_at hm (by simp) (by simp)
    have hpos := h.suspended hm
    simp [unreaped, hreaped, Main.owed] at hlive
    omega
  | handler place =>
    cases place with
    | waitpid =>
      exfalso
      simp only [step, parent, hm, ite_eq_right_iff, reduceCtorEq, imp_false, not_forall,
        not_not] at hparent
      obtain ⟨i, hi⟩ := hparent
      simpa [step, hm, hi] using hstuck (.waitpid i)
    | decrement => simp [step, parent, hm] at hparent
    | finish => simp [step, parent, hm] at hparent
  | _ => simp [step, parent, hm] at hparent

theorem all_reaped {s : State n} (h : Inv s) (hm : s.main = .report ∨ s.main = .exited)
    (i : Fin n) : s.child i = .reaped := by
  have hlive := h.live (by rcases hm with hm | hm <;> simp [hm])
    (by rcases hm with hm | hm <;> simp [hm])
  have howed : s.main.owed = 0 := by rcases hm with hm | hm <;> rw [hm] <;> rfl
  have hle := h.left hm
  have hnone : unreaped s = 0 := by omega
  by_contra hi
  have hmem : i ∈ univ.filter fun k => s.child k ≠ .reaped := by simp [hi]
  rw [card_eq_zero.mp hnone] at hmem
  cases hmem

/-- No wake-up is lost: every child is reaped, once, and the parent waits only for children that
run. Every run ends, and not before. -/
theorem multi_SIGCHLD_reaps {s : State n} (hs : (machine n).Reachable s) :
    (s.main.forking = false → s.main ≠ .handler .decrement → s.numLiveChildren = unreaped s) ∧
    (∀ i, s.reaped.count i = if s.child i = .reaped then 1 else 0) ∧
    (s.main = .report ∨ s.main = .exited → ∀ i, s.child i = .reaped) ∧
    (s.main = .sigsuspend → s.pending = false → ∀ i, s.child i ≠ .zombie) ∧
    (∀ a s', step s a = some s' → stepsLeft s' < stepsLeft s) ∧
    ((∀ a, step s a = none) → s.main = .exited ∨ s.main = .errExit ∨ s.main = .usageErr) := by
  have h := inv_of_reachable hs
  refine ⟨fun hf hd => ?_, fun i => ?_, all_reaped h, fun hm => h.announced_at hm,
    fun a _ => stepsLeft_step h a, ended_of_stuck h⟩
  · have hlive := h.live (by rintro hm; simp [hm, Main.forking] at hf)
      (by rintro hm; simp [hm, Main.forking] at hf)
    have howed : s.main.owed = 0 := by
      unfold Main.owed
      split
      · next hm => exact absurd hm hd
      · rfl
    rw [hlive, howed, add_zero]
  · rw [h.nodup.count]
    simp only [h.mem]

theorem multi_SIGCHLD_reaps_run : ∃ s : State 1, (machine 1).Reachable s ∧ s.main = .exited ∧
    (s.main = .report ∨ s.main = .exited → ∀ i, s.child i = .reaped) := by
  obtain ⟨s, hs, hexited⟩ := Machine.exists_reachable_of_exec (M := machine 1) rfl
    [.parent, .parent, .parent, .parent, .terminate 0, .parent, .parent, .deliver, .waitpid 0,
      .parent, .parent, .parent, .parent, .parent, .parent] (fun s => s.main = .exited) (by decide)
  exact ⟨s, hs, by simpa using hexited, (multi_SIGCHLD_reaps hs).2.2.1⟩

end Tlpi.Procexec.MultiSigchld
