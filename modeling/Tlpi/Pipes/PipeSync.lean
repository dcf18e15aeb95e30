import Tlpi.Lib.Counting
import Tlpi.Lib.Machine
import Tlpi.Lib.Progress
import Mathlib.Tactic

/-! The processes of `pipes/pipe_sync.c`. The parent reads from a pipe to which nobody writes: what
it waits for is that no process has the write end open any more. Every process has its own copies
of the two descriptors, which a child gets from its parent at the `fork()` and loses at its exit. -/

namespace Tlpi.Pipes.PipeSync
open Finset Lib

/-- The descriptors of the pipe that a process has open. -/
structure Ends where
  read : Bool
  write : Bool
  deriving DecidableEq

inductive Child
  | unborn
  | start (ends : Ends)
  /-- At work, before the message. -/
  | sleeping (ends : Ends)
  /-- Before the `close()` of the write end. -/
  | closing (ends : Ends)
  | closed (ends : Ends)
  | exited
  deriving DecidableEq

inductive Parent
  /-- At the top of the loop. -/
  | fork (j : ℕ)
  | read
  /-- Before the last message. -/
  | ready
  | exited
  /-- The `fork()` of child `j` has failed. -/
  | failed (j : ℕ)
  deriving DecidableEq

inductive Event (n : ℕ)
  | started
  | closing (j : Fin n)
  | ready
  deriving DecidableEq

structure State (n : ℕ) where
  parent : Parent
  /-- The descriptors of the parent. -/
  ends : Ends
  child : Fin n → Child
  log : List (Event n)

inductive Act (n : ℕ)
  | parent
  | forkFails
  | child (j : Fin n)

def Child.ends : Child → Ends
  | start ends | sleeping ends | closing ends | closed ends => ends
  | unborn | exited => ⟨false, false⟩

variable {n : ℕ}

/-- Some process has the write end open. -/
def State.WriteOpen (s : State n) : Prop := s.ends.write = true ∨ ∃ j, (s.child j).ends.write = true

instance (s : State n) : Decidable s.WriteOpen := inferInstanceAs (Decidable (_ ∨ _))

def parentStep (s : State n) : Option (State n) :=
  match s.parent with
  | .fork j =>
    if h : j < n then
      some { s with
        parent := .fork (j + 1), child := Function.update s.child ⟨j, h⟩ (.start s.ends) }
    else some { s with parent := .read, ends := { s.ends with write := false } }
  | .read => if s.WriteOpen then none else some { s with parent := .ready }
  | .ready => some { s with parent := .exited, ends := ⟨false, false⟩, log := s.log ++ [.ready] }
  | .exited | .failed _ => none

/-- `sleepTime` is what `getInt()` makes of the arguments; a child whose argument is bad exits. -/
def childStep (sleepTime : Fin n → Option ℕ) (s : State n) (j : Fin n) : Option (State n) :=
  match s.child j with
  | .start ends =>
    some { s with child := Function.update s.child j (.sleeping { ends with read := false }) }
  | .sleeping ends =>
    if (sleepTime j).isSome then
      some { s with
        child := Function.update s.child j (.closing ends), log := s.log ++ [.closing j] }
    else some { s with child := Function.update s.child j .exited }
  | .closing ends =>
    some { s with child := Function.update s.child j (.closed { ends with write := false }) }
  | .closed _ => some { s with child := Function.update s.child j .exited }
  | .unborn | .exited => none

def step (sleepTime : Fin n → Option ℕ) (s : State n) : Act n → Option (State n)
  | .parent => parentStep s
  | .forkFails =>
    match s.parent with
    | .fork j => if j < n then some { s with parent := .failed j, ends := ⟨false, false⟩ } else none
    | _ => none
  | .child j => childStep sleepTime s j

/-- After `pipe()`. -/
def start (n : ℕ) : State n := ⟨.fork 0, ⟨true, true⟩, fun _ => .unborn, [.started]⟩

def machine (sleepTime : Fin n → Option ℕ) : Machine (State n) (Act n) where
  init s := s = start n
  step := step sleepTime

/-! ## The write ends -/

/-- The number of children that the parent has created. -/
def Parent.forked (n : ℕ) : Parent → ℕ
  | fork j | failed j => j
  | _ => n

/-- The parent has seen the end of the file. -/
def Parent.past : Parent → Bool
  | ready | exited => true
  | _ => false

/-- The child has not yet closed its write end. -/
def Child.atWork : Child → Bool
  | start _ | sleeping _ | closing _ => true
  | _ => false

/-- The child has displayed its message, which it does if its argument is valid. -/
def Child.reported (valid : Bool) : Child → Bool
  | closing _ | closed _ | exited => valid
  | _ => false

theorem valid_of_reported {c : Child} {valid : Bool} (h : c.reported valid = true) :
    valid = true := by
  cases c <;> simp_all [Child.reported]

theorem reported_of_not_atWork {c : Child} {valid : Bool} (hborn : c ≠ .unborn)
    (h : c.atWork = false) : c.reported valid = valid := by
  cases c <;> simp_all [Child.reported, Child.atWork]

/-- The children that have displayed their messages, in their order. -/
structure Log (sleepTime : Fin n → Option ℕ) (s : State n) (order : List (Fin n)) : Prop where
  nodup : order.Nodup
  mem : ∀ j, j ∈ order ↔ (s.child j).reported (sleepTime j).isSome = true
  log : s.log = .started :: order.map .closing ++ if s.parent = .exited then [.ready] else []

structure Inv (sleepTime : Fin n → Option ℕ) (s : State n) : Prop where
  unborn : ∀ j : Fin n, s.child j = .unborn ↔ s.parent.forked n ≤ j
  forking : ∀ j, s.parent = .fork j → s.ends.write = true ∧ j ≤ n
  reading : s.parent = .read → s.ends.write = false
  atWork : ∀ j, (s.child j).atWork = (s.child j).ends.write
  past : s.parent.past = true → ∀ j, (s.child j).atWork = false
  log : ∃ order, Log sleepTime s order

variable {sleepTime : Fin n → Option ℕ} {s s' : State n}

theorem inv_start : Inv sleepTime (start n) where
  unborn j := by simp [start, Parent.forked]
  forking j h := by
    cases h
    exact ⟨rfl, Nat.zero_le n⟩
  reading h := by simp [start] at h
  atWork j := rfl
  past h := by simp [start, Parent.past] at h
  log := ⟨[], List.nodup_nil, by simp [start, Child.reported], by simp [start]⟩

theorem inv_parent (h : Inv sleepTime s) (hs : parentStep s = some s') : Inv sleepTime s' := by
  obtain ⟨order, hlog⟩ := h.log
  cases hpc : s.parent <;> simp only [parentStep, hpc] at hs
  case fork j =>
    obtain ⟨hwrite, hle⟩ := h.forking j hpc
    have hun : ∀ k : Fin n, s.child k = .unborn ↔ j ≤ k := by
      simpa [hpc, Parent.forked] using h.unborn
    split_ifs at hs with hlt <;> cases hs
    · have hj : s.child ⟨j, hlt⟩ = .unborn := (hun _).mpr le_rfl
      refine ⟨?_, fun _ hk => ?_, fun hr => by simp at hr, ?_,
        fun hp => by simp [Parent.past] at hp, order, hlog.nodup, ?_, by simpa [hpc] using hlog.log⟩
      · refine (Function.forall_update_iff s.child fun k d => d = .unborn ↔ j + 1 ≤ (k : ℕ)).mpr
          ⟨by simp, fun k hk => ?_⟩
        have hne : (k : ℕ) ≠ j := fun heq => hk (Fin.ext heq)
        rw [hun k]
        omega
      · cases hk
        exact ⟨hwrite, hlt⟩
      · refine (Function.forall_update_iff s.child fun _ d => d.atWork = d.ends.write).mpr
          ⟨?_, fun k _ => h.atWork k⟩
        simp [Child.atWork, Child.ends, hwrite]
      · refine (Function.forall_update_iff s.child fun k d =>
          k ∈ order ↔ d.reported (sleepTime k).isSome = true).mpr ⟨?_, fun k _ => hlog.mem k⟩
        simpa [hj, Child.reported] using hlog.mem ⟨j, hlt⟩
    · have hn : j = n := le_antisymm hle (not_lt.mp hlt)
      exact ⟨fun k => by simpa [hn, Parent.forked] using hun k, fun _ hk => by simp at hk,
        fun _ => rfl, h.atWork,
        fun hp => by simp [Parent.past] at hp, order, hlog.nodup, hlog.mem,
        by simpa [hpc] using hlog.log⟩
  case read =>
    obtain ⟨hclosed, ⟨⟩⟩ := Option.ite_none_left_eq_some.mp hs
    refine ⟨by simpa [hpc, Parent.forked] using h.unborn, fun _ hk => by simp at hk,
      fun hr => by simp at hr, h.atWork,
      fun _ k => ?_, order, hlog.nodup, hlog.mem, by simpa [hpc] using hlog.log⟩
    -- a child at work would have the write end open
    rw [h.atWork k]
    by_contra hopen
    exact hclosed (.inr ⟨k, by simpa using hopen⟩)
  case ready =>
    cases hs
    exact ⟨by simpa [hpc, Parent.forked] using h.unborn, fun _ hk => by simp at hk,
      fun hr => by simp at hr, h.atWork,
      fun _ => h.past (by rw [hpc]; rfl), order, hlog.nodup, hlog.mem, by simp [hlog.log, hpc]⟩
  case exited | failed => cases hs

/-- A child goes on to `c` without a message. -/
theorem inv_move {j : Fin n} {c : Child} (h : Inv sleepTime s) (hborn : s.child j ≠ .unborn)
    (hnew : c ≠ .unborn) (hends : c.atWork = c.ends.write)
    (hwork : c.atWork = true → (s.child j).atWork = true)
    (hsame : c.reported (sleepTime j).isSome = (s.child j).reported (sleepTime j).isSome) :
    Inv sleepTime { s with child := Function.update s.child j c } := by
  obtain ⟨order, hlog⟩ := h.log
  refine ⟨?_, h.forking, h.reading, ?_, fun hp => ?_, order, hlog.nodup, ?_, hlog.log⟩
  · refine (Function.forall_update_iff s.child fun k d => d = .unborn ↔ _ ≤ (k : ℕ)).mpr
      ⟨?_, fun k _ => h.unborn k⟩
    simpa [hnew, hborn] using h.unborn j
  · exact (Function.forall_update_iff s.child fun _ d => d.atWork = d.ends.write).mpr
      ⟨hends, fun k _ => h.atWork k⟩
  · refine (Function.forall_update_iff s.child fun _ d => d.atWork = false).mpr
      ⟨?_, fun k _ => h.past hp k⟩
    have hold := h.past hp j
    simpa [hold] using hwork
  · refine (Function.forall_update_iff s.child fun k d =>
      k ∈ order ↔ d.reported (sleepTime k).isSome = true).mpr ⟨?_, fun k _ => hlog.mem k⟩
    simpa [hsame] using hlog.mem j

theorem inv_report {j : Fin n} {ends : Ends} (h : Inv sleepTime s)
    (hpc : s.child j = .sleeping ends) (hvalid : (sleepTime j).isSome = true) :
    Inv sleepTime { s with
      child := Function.update s.child j (.closing ends), log := s.log ++ [.closing j] } := by
  obtain ⟨order, hlog⟩ := h.log
  have hwork := h.atWork j
  -- the parent still waits for this child
  have hpast : s.parent.past = false := by
    by_contra hp
    have := h.past (by simpa using hp) j
    simp [hpc, Child.atWork] at this
  have hexited : s.parent ≠ .exited := fun he => by simp [he, Parent.past] at hpast
  have hnot : j ∉ order := by simp [hlog.mem j, hpc, Child.reported]
  refine ⟨?_, h.forking, h.reading, ?_, fun hp => by simp [hpast] at hp, order ++ [j], ?_, ?_,
    by simp [hlog.log, hexited]⟩
  · refine (Function.forall_update_iff s.child fun k d => d = .unborn ↔ _ ≤ (k : ℕ)).mpr
      ⟨?_, fun k _ => h.unborn k⟩
    simpa [hpc] using h.unborn j
  · refine (Function.forall_update_iff s.child fun _ d => d.atWork = d.ends.write).mpr
      ⟨?_, fun k _ => h.atWork k⟩
    simpa [hpc, Child.atWork, Child.ends] using hwork
  · exact List.nodup_append.mpr ⟨hlog.nodup, List.nodup_singleton j, fun a ha b hb => by
      rw [List.mem_singleton.mp hb]
      exact fun heq => hnot (heq ▸ ha)⟩
  · refine (Function.forall_update_iff s.child fun k d =>
      k ∈ order ++ [j] ↔ d.reported (sleepTime k).isSome = true).mpr ⟨?_, fun k hk => ?_⟩
    · simp [Child.reported, hvalid]
    · simpa [hk] using hlog.mem k

theorem inv_child {j : Fin n} (h : Inv sleepTime s) (hs : childStep sleepTime s j = some s') :
    Inv sleepTime s' := by
  have hwork := h.atWork j
  cases hpc : s.child j <;> simp only [childStep, hpc] at hs <;> rw [hpc] at hwork
  case sleeping ends =>
    split_ifs at hs with hvalid <;> cases hs
    · exact inv_report h hpc hvalid
    · exact inv_move h (by simp [hpc]) (by simp) rfl (by simp [Child.atWork])
        (by simpa [hpc, Child.reported] using hvalid)
  case unborn | exited => cases hs
  case start ends =>
    cases hs
    exact inv_move h (by simp [hpc]) (by simp) hwork (by simp [hpc, Child.atWork])
      (by simp [hpc, Child.reported])
  case closing ends =>
    cases hs
    exact inv_move h (by simp [hpc]) (by simp) rfl (by simp [Child.atWork])
      (by simp [hpc, Child.reported])
  case closed ends =>
    cases hs
    exact inv_move h (by simp [hpc]) (by simp) rfl (by simp [Child.atWork])
      (by simp [hpc, Child.reported])

theorem inv_step (a : Act n) (h : Inv sleepTime s) (hs : step sleepTime s a = some s') :
    Inv sleepTime s' := by
  cases a with
  | parent => exact inv_parent h hs
  | child j => exact inv_child h hs
  | forkFails =>
    obtain ⟨order, hlog⟩ := h.log
    cases hpc : s.parent <;> simp only [step, hpc, reduceCtorEq] at hs
    obtain ⟨-, ⟨⟩⟩ := Option.ite_none_right_eq_some.mp hs
    exact ⟨by simpa [hpc, Parent.forked] using h.unborn, fun _ hk => by simp at hk,
      fun hr => by simp at hr, h.atWork,
      fun hp => by simp [Parent.past] at hp, order, hlog.nodup, hlog.mem,
      by simpa [hpc] using hlog.log⟩

theorem inv_of_reachable (h : (machine sleepTime).Reachable s) : Inv sleepTime s :=
  h.invariant (I := Inv sleepTime) (by rintro _ rfl; exact inv_start)
    fun _ a _ hinv hs => inv_step a hinv hs

/-! ## The end of the runs -/

def Child.weight : Child → ℕ
  | unborn | exited => 0
  | closed _ => 1
  | closing _ => 2
  | sleeping _ => 3
  | start _ => 4

/-- The children to come weigh what they will weigh, and the `fork()`. -/
def Parent.weight (n : ℕ) : Parent → ℕ
  | fork j => 5 * (n - j) + 3
  | read => 2
  | ready => 1
  | exited | failed _ => 0

def weight (s : State n) : ℕ := s.parent.weight n + ∑ j, (s.child j).weight

theorem weight_move {j : Fin n} {c : Child} (hlt : c.weight < (s.child j).weight) :
    ∑ k, (Function.update s.child j c k).weight < ∑ k, (s.child k).weight := by
  have hsum := sum_update Child.weight s.child j c
  omega

theorem weight_parent (h : Inv sleepTime s) (hs : parentStep s = some s') :
    weight s' < weight s := by
  cases hpc : s.parent <;> simp only [parentStep, hpc] at hs
  case fork j =>
    split_ifs at hs with hlt <;> cases hs
    · have hj : s.child ⟨j, hlt⟩ = .unborn :=
        (h.unborn ⟨j, hlt⟩).mpr (by simp [hpc, Parent.forked])
      have hsum := sum_update Child.weight s.child ⟨j, hlt⟩ (.start s.ends)
      have hborn : (Child.start s.ends).weight = 4 := rfl
      simp only [weight, hpc, Parent.weight]
      omega
    · simp only [weight, hpc, Parent.weight]
      omega
  case read =>
    obtain ⟨-, ⟨⟩⟩ := Option.ite_none_left_eq_some.mp hs
    simp [weight, hpc, Parent.weight]
  case ready =>
    cases hs
    simp [weight, hpc, Parent.weight]
  case exited | failed => cases hs

theorem weight_child {j : Fin n} (hs : childStep sleepTime s j = some s') :
    weight s' < weight s := by
  cases hpc : s.child j <;> simp only [childStep, hpc] at hs
  case sleeping ends =>
    split_ifs at hs <;> cases hs
    all_goals exact Nat.add_lt_add_left (weight_move (by simp [hpc, Child.weight])) _
  case unborn | exited => cases hs
  case start | closing | closed =>
    cases hs
    exact Nat.add_lt_add_left (weight_move (by simp [hpc, Child.weight])) _

theorem weight_step (a : Act n) (h : Inv sleepTime s) (hs : step sleepTime s a = some s') :
    weight s' < weight s := by
  cases a with
  | parent => exact weight_parent h hs
  | child j => exact weight_child hs
  | forkFails =>
    cases hpc : s.parent <;> simp only [step, hpc, reduceCtorEq] at hs
    obtain ⟨-, ⟨⟩⟩ := Option.ite_none_right_eq_some.mp hs
    simp only [weight, hpc, Parent.weight]
    omega

theorem child_of_stuck (hstuck : (machine sleepTime).Stuck s) (j : Fin n) :
    s.child j = .unborn ∨ s.child j = .exited := by
  have hj : childStep sleepTime s j = none := hstuck (.child j)
  cases hpc : s.child j <;> simp only [childStep, hpc, reduceCtorEq] at hj
  case sleeping => split_ifs at hj
  case unborn => exact .inl rfl
  case exited => exact .inr rfl

/-- The parent does not wait for the end of the file for ever. -/
theorem parent_of_stuck (h : Inv sleepTime s) (hstuck : (machine sleepTime).Stuck s) :
    s.parent = .exited ∨ ∃ k, s.parent = .failed k := by
  have hparent : parentStep s = none := hstuck .parent
  cases hpc : s.parent <;> simp only [parentStep, hpc, reduceCtorEq] at hparent
  case fork => split_ifs at hparent
  case exited => exact .inl rfl
  case failed k => exact .inr ⟨k, rfl⟩
  case read =>
    have hopen : s.WriteOpen := by
      by_contra hclosed
      simp [hclosed] at hparent
    rcases hopen with hown | ⟨j, hj⟩
    · simp [h.reading hpc] at hown
    · rcases child_of_stuck hstuck j with hc | hc <;> simp [hc, Child.ends] at hj

/-- All processes terminate. The parent goes on only after each of its children has closed the pipe,
whatever the order in which they do: if no `fork()` fails, the messages are that of the start, those
of the children with a valid argument, once each, and then that of the parent. -/
theorem pipe_sync_completes (sleepTime : Fin n → Option ℕ) :
    (machine sleepTime).Completes (fun s =>
        (s.parent = .exited ∧ ∀ j, s.child j = .exited) ∨
          ∃ k, s.parent = .failed k ∧
            ∀ j : Fin n, s.child j = if (j : ℕ) < k then .exited else .unborn) ∧
      ∀ s, (machine sleepTime).Reachable s →
        ∃ order : List (Fin n), order.Nodup ∧ (∀ j ∈ order, (sleepTime j).isSome = true) ∧
          if s.parent = .exited then
            (∀ j, (s.child j).ends.write = false ∧ ((sleepTime j).isSome = true → j ∈ order)) ∧
              s.log = .started :: order.map .closing ++ [.ready]
          else s.log = .started :: order.map .closing := by
  refine ⟨Machine.completes_of_weight (Inv sleepTime) weight (by rintro _ rfl; exact inv_start)
    (fun _ a _ h hs => inv_step a h hs) (fun _ a _ h hs => weight_step a h hs)
    fun s h hstuck => ?_, fun s hs => ?_⟩
  · rcases parent_of_stuck h hstuck with hpc | ⟨k, hpc⟩
    · refine .inl ⟨hpc, fun j => (child_of_stuck hstuck j).resolve_left fun hun => ?_⟩
      exact absurd ((h.unborn j).mp hun) (by simp [hpc, Parent.forked])
    · refine .inr ⟨k, hpc, fun j => ?_⟩
      have hun : s.child j = .unborn ↔ k ≤ j := by simpa [hpc, Parent.forked] using h.unborn j
      split_ifs with hlt
      · exact (child_of_stuck hstuck j).resolve_left fun hj => absurd (hun.mp hj) (not_le.mpr hlt)
      · exact hun.mpr (not_lt.mp hlt)
  · have h := inv_of_reachable hs
    obtain ⟨order, hlog⟩ := h.log
    refine ⟨order, hlog.nodup, fun j hj => valid_of_reported ((hlog.mem j).mp hj), ?_⟩
    split_ifs with hpc
    · have hpast := h.past (by rw [hpc]; rfl)
      refine ⟨fun j => ⟨by rw [← h.atWork j, hpast j], fun hvalid => ?_⟩,
        by simpa [hpc] using hlog.log⟩
      have hborn : s.child j ≠ .unborn := fun hun =>
        absurd ((h.unborn j).mp hun) (by simp [hpc, Parent.forked])
      exact (hlog.mem j).mpr (reported_of_not_atWork hborn (hpast j) ▸ hvalid)
    · simpa [hpc] using hlog.log

end Tlpi.Pipes.PipeSync
