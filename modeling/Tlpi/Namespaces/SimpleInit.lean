import Tlpi.Lib.Machine
import Tlpi.Lib.Progress
import Mathlib.Tactic

/-! The shell loop of `namespaces/simple_init.c` and its handler for SIGCHLD, which runs whenever
the signal is pending, also between the `fork()` and the `pause()` of a command. As the init
process of its namespace the program also adopts the orphans there. -/

namespace Tlpi.Namespaces.SimpleInit
open Lib

inductive Main
  /-- In `fgets()`. -/
  | prompt
  /-- A child has been created; `pause()` comes next. -/
  | pausing
  | paused
  | exited
  deriving DecidableEq

structure State where
  /-- The lines that have yet to be read. -/
  input : List (List Char)
  main : Main
  /-- The program is in `child_handler()`. -/
  handler : Bool
  /-- SIGCHLD is pending. -/
  pending : Bool
  running : ℕ
  zombies : ℕ
  deriving DecidableEq

inductive Act
  | main
  | forkFails
  | terminate
  | adopt
  /-- SIGCHLD is delivered. -/
  | deliver
  | handler
  deriving DecidableEq

/-- The command without its newline. -/
def strip (line : List Char) : List Char :=
  if line.getLast? = some '\n' then line.dropLast else line

def mainStep (s : State) : Option State :=
  match s.main, s.input with
  | .prompt, [] => some { s with main := .exited }
  | .prompt, line :: input =>
    if strip line = [] then some { s with input }
    else some { s with input, main := .pausing, running := s.running + 1 }
  | .pausing, _ => some { s with main := .paused }
  | _, _ => none

/-- One turn of the loop around `waitpid()`. With the end of the handler `pause()` returns, while
`fgets()` goes on. -/
def handlerStep (s : State) : State :=
  match s.zombies with
  | zombies + 1 => { s with zombies }
  | 0 => { s with handler := false, main := if s.main = .paused then .prompt else s.main }

/-- With the exit of the program all the processes of the namespace are gone. -/
def step (s : State) (a : Act) : Option State :=
  if s.main = .exited then none
  else match a with
    | .main => if s.handler then none else mainStep s
    | .forkFails =>
      match s.main, s.input with
      | .prompt, line :: input =>
        if s.handler ∨ strip line = [] then none else some { s with input, main := .exited }
      | _, _ => none
    | .terminate =>
      match s.running with
      | running + 1 => some { s with running, zombies := s.zombies + 1, pending := true }
      | 0 => none
    | .adopt => some { s with running := s.running + 1 }
    | .deliver =>
      if s.pending ∧ ¬ s.handler then some { s with pending := false, handler := true } else none
    | .handler => if s.handler then some (handlerStep s) else none

def start (input : List (List Char)) : State := ⟨input, .prompt, false, false, 0, 0⟩

def machine (input : List (List Char)) : Machine State Act where
  init s := s = start input
  step := step

/-- The program waits for a signal, and there is no child left that could cause one. -/
def State.Hung (s : State) : Prop :=
  s.main = .paused ∧ s.handler = false ∧ s.pending = false ∧ s.running = 0 ∧ s.zombies = 0

/-- How many orphans there are is up to the other processes. -/
def adoptions : Act → ℕ
  | .adopt => 7
  | _ => 0

/-- The child does not terminate before the `pause()`. -/
def NotEarly (s : State) (a : Act) : Prop := a = .deliver → s.main ≠ .pausing

instance (s : State) (a : Act) : Decidable (NotEarly s a) := by unfold NotEarly; infer_instance

variable {input : List (List Char)} {s s' : State}

/-- What a step can be, by its action. -/
theorem step_cases {a : Act} (ha : step s a = some s') :
    (s.handler = false ∧ mainStep s = some s') ∨
    (s.main = .prompt ∧ ∃ line, s.input = line :: s'.input ∧ strip line ≠ [] ∧
      s' = { s with input := s'.input, main := .exited }) ∨
    (∃ n, s.running = n + 1 ∧
      s' = { s with running := n, zombies := s.zombies + 1, pending := true }) ∨
    (a = .adopt ∧ s' = { s with running := s.running + 1 }) ∨
    (a = .deliver ∧ s.pending = true ∧ s.handler = false ∧
      s' = { s with pending := false, handler := true }) ∨
    (s.handler = true ∧ s' = handlerStep s) := by
  obtain ⟨-, ha⟩ := Option.ite_none_left_eq_some.mp ha
  cases a with
  | main =>
    obtain ⟨hh, ha⟩ := Option.ite_none_left_eq_some.mp ha
    exact .inl ⟨by simpa using hh, ha⟩
  | forkFails =>
    refine .inr (.inl ?_)
    cases hmain : s.main <;> cases hinput : s.input <;> simp only [hmain, hinput] at ha
    case prompt.cons line rest =>
      obtain ⟨hcond, ha⟩ := Option.ite_none_left_eq_some.mp ha
      obtain rfl := Option.some.inj ha
      exact ⟨rfl, line, rfl, fun h => hcond (.inr h), rfl⟩
    all_goals simp at ha
  | terminate =>
    refine .inr (.inr (.inl ?_))
    cases hrun : s.running with
    | zero => simp [hrun] at ha
    | succ n =>
      simp only [hrun] at ha
      exact ⟨n, rfl, (Option.some.inj ha).symm⟩
  | adopt => exact .inr (.inr (.inr (.inl ⟨rfl, (Option.some.inj ha).symm⟩)))
  | deliver =>
    obtain ⟨⟨hp, hh⟩, ha⟩ := Option.ite_none_right_eq_some.mp ha
    exact .inr (.inr (.inr (.inr (.inl ⟨rfl, hp, by simpa using hh, (Option.some.inj ha).symm⟩))))
  | handler =>
    obtain ⟨hh, ha⟩ := Option.ite_none_right_eq_some.mp ha
    exact .inr (.inr (.inr (.inr (.inr ⟨hh, (Option.some.inj ha).symm⟩))))

theorem mainStep_cases (ha : mainStep s = some s') :
    (s.main = .prompt ∧ s' = { s with main := .exited }) ∨
    (s.main = .prompt ∧ ∃ line input, s.input = line :: input ∧ strip line = [] ∧
      s' = { s with input }) ∨
    (s.main = .prompt ∧ ∃ line input, s.input = line :: input ∧ strip line ≠ [] ∧
      s' = { s with input, main := .pausing, running := s.running + 1 }) ∨
    (s.main = .pausing ∧ s' = { s with main := .paused }) := by
  rw [mainStep] at ha
  cases hmain : s.main <;> cases hinput : s.input <;> simp only [hmain, hinput] at ha
  case prompt.nil => exact .inl ⟨rfl, (Option.some.inj ha).symm⟩
  case prompt.cons line rest =>
    split at ha
    · exact .inr (.inl ⟨rfl, line, rest, rfl, ‹_›, (Option.some.inj ha).symm⟩)
    · exact .inr (.inr (.inl ⟨rfl, line, rest, rfl, ‹_›, (Option.some.inj ha).symm⟩))
  case pausing.nil | pausing.cons => exact .inr (.inr (.inr ⟨rfl, (Option.some.inj ha).symm⟩))
  all_goals simp at ha

theorem handlerStep_cases (s : State) :
    (∃ n, s.zombies = n + 1 ∧ handlerStep s = { s with zombies := n }) ∨
    (s.zombies = 0 ∧ handlerStep s =
      { s with handler := false, main := if s.main = .paused then .prompt else s.main }) := by
  rw [handlerStep]
  cases s.zombies with
  | zero => exact .inr ⟨rfl, rfl⟩
  | succ n => exact .inl ⟨n, rfl, rfl⟩

/-! ## No zombie is forgotten -/

/-- A terminated child is waited for: its signal is pending, or the handler is at it. -/
def Inv (s : State) : Prop := 0 < s.zombies → s.pending = true ∨ s.handler = true

theorem inv_step (h : Inv s) {a : Act} (ha : step s a = some s') : Inv s' := by
  rcases step_cases ha with ⟨-, ha⟩ | ⟨-, _, -, -, hs'⟩ | ⟨n, -, rfl⟩ | ⟨-, rfl⟩ |
    ⟨-, -, -, rfl⟩ | ⟨hh, rfl⟩
  · rcases mainStep_cases ha with
      ⟨-, rfl⟩ | ⟨-, _, _, -, -, rfl⟩ | ⟨-, _, _, -, -, rfl⟩ | ⟨-, rfl⟩ <;>
      exact h
  · rw [hs']
    exact h
  · exact fun _ => .inl rfl
  · exact h
  · exact fun _ => .inr rfl
  · rcases handlerStep_cases s with ⟨n, -, hstep⟩ | ⟨hz, hstep⟩ <;> rw [hstep]
    · exact fun _ => .inr hh
    · exact fun hpos => absurd hz hpos.ne'

theorem inv_of_reachable (hs : (machine input).Reachable s) : Inv s := by
  refine hs.invariant (I := Inv) ?_ fun _ _ _ h ha => inv_step h ha
  rintro _ rfl hpos
  exact absurd hpos (lt_irrefl 0)

/-! ## Every run ends -/

def Main.rank : Main → ℕ
  | .prompt => 1
  | .pausing => 3
  | .paused => 2
  | .exited => 0

def weight (s : State) : ℕ :=
  10 * s.input.length + 6 * s.running + s.zombies + 3 * s.pending.toNat + 2 * s.handler.toNat +
    s.main.rank

theorem weight_step {a : Act} (ha : step s a = some s') : weight s' < weight s + adoptions a := by
  rcases step_cases ha with ⟨-, ha⟩ | ⟨hmain, line, hinput, -, hs'⟩ | ⟨n, hrun, rfl⟩ | ⟨rfl, rfl⟩ |
    ⟨-, hp, hh, rfl⟩ | ⟨hh, rfl⟩
  · rcases mainStep_cases ha with ⟨hmain, rfl⟩ | ⟨hmain, _, _, hinput, -, rfl⟩ |
      ⟨hmain, _, _, hinput, -, rfl⟩ | ⟨hmain, rfl⟩ <;>
      simp only [weight, hmain, Main.rank]
    · omega
    · simp only [hinput, List.length_cons]
      omega
    · simp only [hinput, List.length_cons]
      omega
    · omega
  · rw [hs']
    simp only [weight, hmain, hinput, Main.rank, List.length_cons]
    omega
  · have hle := Bool.toNat_le s.pending
    simp only [weight, hrun, Bool.toNat_true]
    omega
  · simp only [weight, adoptions]
    omega
  · simp only [weight, hp, hh, Bool.toNat_true, Bool.toNat_false]
    omega
  · rcases handlerStep_cases s with ⟨n, hz, hstep⟩ | ⟨hz, hstep⟩ <;> rw [hstep] <;>
      simp only [weight, hh, hz, Bool.toNat_true, Bool.toNat_false]
    · omega
    · by_cases hmain : s.main = .paused
      · simp only [hmain, if_true, Main.rank]
        omega
      · simp only [hmain, if_false]
        omega

theorem done_of_stuck (h : Inv s) (hs : ∀ a, adoptions a = 0 → step s a = none) :
    s.main = .exited ∨ s.Hung := by
  by_cases hmain : s.main = .exited
  · exact .inl hmain
  have hhandler : s.handler = false := by
    have hstep := hs .handler rfl
    simpa [step, hmain] using hstep
  have hpending : s.pending = false := by
    have hstep := hs .deliver rfl
    simpa [step, hmain, hhandler] using hstep
  have hzombies : s.zombies = 0 := by
    by_contra hne
    simpa [hpending, hhandler] using h (Nat.pos_of_ne_zero hne)
  have hrunning : s.running = 0 := by
    have hstep := hs .terminate rfl
    cases hrun : s.running with
    | zero => rfl
    | succ n => simp [step, hmain, hrun] at hstep
  have hmainStep := hs .main rfl
  refine .inr ⟨?_, hhandler, hpending, hrunning, hzombies⟩
  cases hm : s.main with
  | prompt =>
    cases hinput : s.input with
    | nil => simp [step, hhandler, mainStep, hm, hinput] at hmainStep
    | cons line rest =>
      by_cases hline : strip line = [] <;>
        simp [step, hhandler, mainStep, hm, hinput, hline] at hmainStep
  | pausing => simp [step, hhandler, mainStep, hm] at hmainStep
  | paused => rfl
  | exited => exact absurd hm hmain

/-! ## The lost signal -/

/-- Without a command the program stays at its prompt. -/
theorem prompt_of_reachable (hnone : ∀ line ∈ input, strip line = [])
    (hs : (machine input).Reachable s) :
    (s.main = .prompt ∨ s.main = .exited) ∧ ∀ line ∈ s.input, strip line = [] := by
  refine hs.invariant (I := fun s => (s.main = .prompt ∨ s.main = .exited) ∧
    ∀ line ∈ s.input, strip line = []) ?_ ?_
  · rintro _ rfl
    exact ⟨.inl rfl, hnone⟩
  · rintro s a s' ⟨hmain, hlines⟩ ha
    rcases step_cases ha with ⟨-, ha⟩ | ⟨-, line, hinput, hline, -⟩ | ⟨n, -, rfl⟩ | ⟨-, rfl⟩ |
      ⟨-, -, -, rfl⟩ | ⟨-, rfl⟩
    · rcases mainStep_cases ha with ⟨-, rfl⟩ | ⟨hm, line, rest, hinput, -, rfl⟩ |
        ⟨-, line, rest, hinput, hline, -⟩ | ⟨hm, -⟩
      · exact ⟨.inr rfl, hlines⟩
      · rw [hinput] at hlines
        exact ⟨.inl hm, fun l hl => hlines l (List.mem_cons_of_mem _ hl)⟩
      · exact absurd (hlines line (by simp [hinput])) hline
      · simp [hm] at hmain
    · exact absurd (hlines line (by simp [hinput])) hline
    · exact ⟨hmain, hlines⟩
    · exact ⟨hmain, hlines⟩
    · exact ⟨hmain, hlines⟩
    · rcases handlerStep_cases s with ⟨n, -, hstep⟩ | ⟨-, hstep⟩ <;> rw [hstep]
      · exact ⟨hmain, hlines⟩
      · have hm : s.main ≠ .paused := by rcases hmain with hm | hm <;> simp [hm]
        exact ⟨by rwa [if_neg hm], hlines⟩

/-- The child terminates at once, and the handler has run before the `pause()`. -/
theorem hung_of_prompt {rest : List (List Char)} (hs : (machine input).Reachable (start rest))
    (hline : ∃ line ∈ rest, strip line ≠ []) : ∃ s, (machine input).Reachable s ∧ s.Hung := by
  induction rest with
  | nil => simp at hline
  | cons line rest ih =>
    by_cases hstrip : strip line = []
    · have hnext : (machine input).Reachable (start rest) :=
        .step .main hs trivial (by simp [machine, step, mainStep, start, hstrip])
      refine ih hnext ?_
      obtain ⟨l, hl, hne⟩ := hline
      rcases List.mem_cons.mp hl with rfl | hl
      · exact absurd hstrip hne
      · exact ⟨l, hl, hne⟩
    · have h1 : (machine input).Reachable ⟨rest, .pausing, false, false, 1, 0⟩ :=
        .step .main hs trivial (by simp [machine, step, mainStep, start, hstrip])
      have h2 : (machine input).Reachable ⟨rest, .pausing, false, true, 0, 1⟩ :=
        .step .terminate h1 trivial rfl
      have h3 : (machine input).Reachable ⟨rest, .pausing, true, false, 0, 1⟩ :=
        .step .deliver h2 trivial rfl
      have h4 : (machine input).Reachable ⟨rest, .pausing, true, false, 0, 0⟩ :=
        .step .handler h3 trivial rfl
      have h5 : (machine input).Reachable ⟨rest, .pausing, false, false, 0, 0⟩ :=
        .step .handler h4 trivial rfl
      exact ⟨_, .step .main h5 trivial rfl, rfl, rfl, rfl, rfl, rfl⟩

/-- There is something to wait for. -/
structure Awaited (s : State) : Prop where
  inv : Inv s
  pausing : s.main = .pausing → s.handler = false ∧ (0 < s.running ∨ s.pending = true)
  paused : s.main = .paused → s.handler = true ∨ 0 < s.running ∨ s.pending = true

theorem awaited_step (h : Awaited s) {a : Act} (hG : NotEarly s a) (ha : step s a = some s') :
    Awaited s' := by
  refine ⟨inv_step h.inv ha, ?_, ?_⟩ <;>
    rcases step_cases ha with ⟨hh, ha⟩ | ⟨-, _, -, -, hs'⟩ | ⟨n, -, rfl⟩ | ⟨-, rfl⟩ |
      ⟨rfl, -, -, rfl⟩ | ⟨hh, rfl⟩
  · rcases mainStep_cases ha with ⟨-, rfl⟩ | ⟨hm, _, _, -, -, rfl⟩ | ⟨-, _, _, -, -, rfl⟩ | ⟨-, rfl⟩
    · intro hm'
      cases hm'
    · intro hm'
      simp [hm] at hm'
    · exact fun _ => ⟨hh, .inl (Nat.succ_pos _)⟩
    · intro hm'
      cases hm'
  · intro hm'
    rw [hs'] at hm'
    cases hm'
  · exact fun hm => ⟨(h.pausing hm).1, .inr rfl⟩
  · exact fun hm => ⟨(h.pausing hm).1, .inl (Nat.succ_pos _)⟩
  · exact fun hm => absurd hm (hG rfl)
  · rcases handlerStep_cases s with ⟨n, -, hstep⟩ | ⟨-, hstep⟩ <;> rw [hstep]
    · exact h.pausing
    · intro hm
      by_cases hp : s.main = .paused
      · simp [hp] at hm
      · simp only [hp, if_false] at hm
        exact absurd (h.pausing hm).1 (by simp [hh])
  · rcases mainStep_cases ha with
      ⟨-, rfl⟩ | ⟨hm, _, _, -, -, rfl⟩ | ⟨-, _, _, -, -, rfl⟩ | ⟨hm, rfl⟩
    · intro hm'
      cases hm'
    · intro hm'
      simp [hm] at hm'
    · intro hm'
      cases hm'
    · exact fun _ => .inr (h.pausing hm).2
  · intro hm'
    rw [hs'] at hm'
    cases hm'
  · exact fun _ => .inr (.inr rfl)
  · exact fun _ => .inr (.inl (Nat.succ_pos _))
  · exact fun _ => .inl rfl
  · rcases handlerStep_cases s with ⟨n, -, hstep⟩ | ⟨-, hstep⟩ <;> rw [hstep]
    · exact h.paused
    · intro hm
      by_cases hp : s.main = .paused <;> simp [hp] at hm

end Tlpi.Namespaces.SimpleInit
