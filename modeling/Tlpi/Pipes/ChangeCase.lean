import Tlpi.Lib.CopyLoop
import Tlpi.Lib.Machine
import Tlpi.Lib.Progress
import Mathlib.Tactic

/-! The two processes of `pipes/change_case.c`. The parent sends a block to its child over one pipe
and reads it back, in upper case, over the other; it never reads twice for one block, so that all
depends on a block staying in one piece. Writes to the standard output are complete. -/

namespace Tlpi.Pipes.ChangeCase
open Lib

/-- `BUF_SIZE`. -/
def bufSize : ℕ := 100

/-- `PIPE_BUF`: a write of at most so many bytes is atomic. -/
def pipeBuf : ℕ := 4096

/-- `toupper()` in the C locale. -/
def toupper (c : UInt8) : UInt8 := if 97 ≤ c ∧ c ≤ 122 then c - 32 else c

inductive ParentPc
  | readStdin
  | writeOutbound (buf : List UInt8)
  | readInbound
  | writeStdout (buf : List UInt8)
  | exited
  deriving DecidableEq

inductive ChildPc
  | read
  | write (buf : List UInt8)
  | exited
  deriving DecidableEq

structure State where
  stdin : List UInt8
  /-- A read of standard input has failed. -/
  readFailed : Bool
  parent : ParentPc
  outbound : List UInt8
  child : ChildPc
  inbound : List UInt8
  stdout : List UInt8

inductive Act
  | readStdin (k : ℕ)
  | stdinEof
  | stdinError
  | writeOutbound
  | readInbound
  | inboundEof
  | writeStdout
  | childRead
  | childWrite
  | childEof

/-- The loops of the two processes, after each has closed the descriptors that it does not use. -/
def start (input : List UInt8) : State where
  stdin := input
  readFailed := false
  parent := .readStdin
  outbound := []
  child := .read
  inbound := []
  stdout := []

def parentStep (cap : ℕ) (s : State) : Act → Option State
  | .readStdin k =>
    if s.parent = .readStdin then (takeBlock bufSize k s.stdin).map fun r =>
      { s with parent := .writeOutbound r.1, stdin := r.2 }
    else none
  | .stdinEof =>
    if s.parent = .readStdin ∧ s.stdin = [] then some { s with parent := .exited } else none
  | .stdinError =>
    if s.parent = .readStdin then some { s with parent := .exited, readFailed := true } else none
  | .writeOutbound =>
    match s.parent with
    | .writeOutbound buf => (writeAtomic cap buf s.outbound).map fun q =>
        { s with parent := .readInbound, outbound := q }
    | _ => none
  | .readInbound =>
    if s.parent = .readInbound then (readAvailable bufSize s.inbound).map fun r =>
      { s with parent := .writeStdout r.1, inbound := r.2 }
    else none
  | .inboundEof =>
    -- nothing is written for an empty read, and the loop goes on
    if s.parent = .readInbound ∧ s.inbound = [] ∧ s.child = .exited then
      some { s with parent := .readStdin }
    else none
  | .writeStdout =>
    match s.parent with
    | .writeStdout buf => some { s with parent := .readStdin, stdout := s.stdout ++ buf }
    | _ => none
  | _ => none

def childStep (cap : ℕ) (s : State) : Act → Option State
  | .childRead =>
    if s.child = .read then (readAvailable bufSize s.outbound).map fun r =>
      { s with child := .write (r.1.map toupper), outbound := r.2 }
    else none
  | .childWrite =>
    match s.child with
    | .write buf => (writeAtomic cap buf s.inbound).map fun q =>
        { s with child := .read, inbound := q }
    | _ => none
  | .childEof =>
    -- the exit of the parent has closed the last write end
    if s.child = .read ∧ s.outbound = [] ∧ s.parent = .exited then some { s with child := .exited }
    else none
  | _ => none

def machine (input : List UInt8) (cap : ℕ) : Machine State Act where
  init s := s = start input
  step s a := (parentStep cap s a).or (childStep cap s a)

/-! ## One block at a time

The two processes take turns: their joint state is always that of one sequential process, which
takes a block from the standard input all the way to the standard output before it reads again. -/

/-- What one read of the standard input returns. -/
def Block : Type := { buf : List UInt8 // buf ≠ [] ∧ buf.length ≤ bufSize }

inductive Phase
  | reading
  | writing (block : Block)
  | sent (block : Block)
  | converted (block : Block)
  | returned (block : Block)
  | printing (block : Block)
  /-- The parent has exited. -/
  | closing
  | ended

structure Sequential where
  phase : Phase
  stdin : List UInt8
  readFailed : Bool
  stdout : List UInt8

def Block.upper (block : Block) : List UInt8 := block.1.map toupper

/-- The states of the processes and of the pipes in each phase. -/
def Sequential.state (q : Sequential) : State :=
  let joint (parent : ParentPc) (outbound : List UInt8) (child : ChildPc) (inbound : List UInt8) :=
    State.mk q.stdin q.readFailed parent outbound child inbound q.stdout
  match q.phase with
  | .reading => joint .readStdin [] .read []
  | .writing block => joint (.writeOutbound block.1) [] .read []
  | .sent block => joint .readInbound block.1 .read []
  | .converted block => joint .readInbound [] (.write block.upper) []
  | .returned block => joint .readInbound [] .read block.upper
  | .printing block => joint (.writeStdout block.upper) [] .read []
  | .closing => joint .exited [] .read []
  | .ended => joint .exited [] .exited []

inductive Next (q : Sequential) : Sequential → Prop
  | read (block : Block) (rest : List UInt8) (h : q.phase = .reading)
      (happ : block.1 ++ rest = q.stdin) : Next q { q with phase := .writing block, stdin := rest }
  | eof (h : q.phase = .reading) (hnil : q.stdin = []) : Next q { q with phase := .closing }
  | error (h : q.phase = .reading) : Next q { q with phase := .closing, readFailed := true }
  | send (block : Block) (h : q.phase = .writing block) : Next q { q with phase := .sent block }
  | convert (block : Block) (h : q.phase = .sent block) :
      Next q { q with phase := .converted block }
  | give (block : Block) (h : q.phase = .converted block) :
      Next q { q with phase := .returned block }
  | take (block : Block) (h : q.phase = .returned block) :
      Next q { q with phase := .printing block }
  | print (block : Block) (h : q.phase = .printing block) :
      Next q { q with phase := .reading, stdout := q.stdout ++ block.upper }
  | childEof (h : q.phase = .closing) : Next q { q with phase := .ended }

theorem Block.upper_ne_nil (block : Block) : block.upper ≠ [] :=
  fun h => block.2.1 (List.map_eq_nil_iff.mp h)

theorem Block.length_upper (block : Block) : block.upper.length ≤ bufSize :=
  (List.length_map toupper).trans_le block.2.2

theorem Block.readAvailable_self (block : Block) :
    readAvailable bufSize block.1 = some (block.1, []) :=
  readAvailable_of_short block.2.1 block.2.2

theorem Block.readAvailable_upper (block : Block) :
    readAvailable bufSize block.upper = some (block.upper, []) :=
  readAvailable_of_short block.upper_ne_nil block.length_upper

variable {input : List UInt8} {cap : ℕ} {q q' : Sequential} {s s' : State}

theorem next_of_step {a : Act} (ha : (machine input cap).step q.state a = some s') :
    ∃ q', Next q q' ∧ s' = q'.state := by
  obtain ⟨phase, stdin, readFailed, stdout⟩ := q
  simp only [machine, Sequential.state] at ha
  cases phase with
  | reading =>
    cases a with
    | readStdin k =>
      simp only [parentStep, childStep, if_true, Option.or_none] at ha
      obtain ⟨⟨buf, rest⟩, hr, rfl⟩ := Option.map_eq_some_iff.mp ha
      obtain ⟨happ, hne, hlen⟩ := takeBlock_eq_some hr
      exact ⟨_, .read ⟨buf, hne, hlen⟩ rest rfl happ, rfl⟩
    | stdinEof =>
      simp only [parentStep, childStep, true_and, Option.or_none] at ha
      obtain ⟨hnil, ha⟩ := Option.ite_none_right_eq_some.mp ha
      exact ⟨_, .eof rfl hnil, (Option.some.inj ha).symm⟩
    | stdinError =>
      simp only [parentStep, childStep, if_true, Option.or_none] at ha
      exact ⟨_, .error rfl, (Option.some.inj ha).symm⟩
    | _ => simp [parentStep, childStep] at ha
  | writing block =>
    cases a with
    | writeOutbound =>
      simp only [parentStep, childStep, Option.or_none] at ha
      obtain ⟨outbound, hq, rfl⟩ := Option.map_eq_some_iff.mp ha
      obtain rfl := writeAtomic_eq_some hq
      exact ⟨_, .send block rfl, rfl⟩
    | _ => simp [parentStep, childStep] at ha
  | sent block =>
    cases a with
    | childRead =>
      simp only [parentStep, childStep, if_true, Option.none_or, block.readAvailable_self] at ha
      exact ⟨_, .convert block rfl, (Option.some.inj ha).symm⟩
    | _ => simp [parentStep, childStep] at ha
  | converted block =>
    cases a with
    | childWrite =>
      simp only [parentStep, childStep, Option.none_or] at ha
      obtain ⟨inbound, hq, rfl⟩ := Option.map_eq_some_iff.mp ha
      obtain rfl := writeAtomic_eq_some hq
      exact ⟨_, .give block rfl, rfl⟩
    | _ => simp [parentStep, childStep] at ha
  | returned block =>
    cases a with
    | readInbound =>
      simp only [parentStep, childStep, if_true, Option.or_none, block.readAvailable_upper] at ha
      exact ⟨_, .take block rfl, (Option.some.inj ha).symm⟩
    | _ => simp [parentStep, childStep] at ha
  | printing block =>
    cases a with
    | writeStdout =>
      simp only [parentStep, childStep, Option.or_none] at ha
      exact ⟨_, .print block rfl, (Option.some.inj ha).symm⟩
    | _ => simp [parentStep, childStep] at ha
  | closing =>
    cases a with
    | childEof =>
      simp only [parentStep, childStep, Option.none_or, and_self, if_true] at ha
      exact ⟨_, .childEof rfl, (Option.some.inj ha).symm⟩
    | _ => simp [parentStep, childStep] at ha
  | ended => cases a <;> simp [parentStep, childStep] at ha

/-- The bytes that are read and not yet printed. -/
def Phase.block : Phase → List UInt8
  | .writing b | .sent b | .converted b | .returned b | .printing b => b.1
  | _ => []

/-- The loop over the standard input is left. -/
def Phase.left : Phase → Bool
  | .closing | .ended => true
  | _ => false

structure Faithful (input : List UInt8) (q : Sequential) : Prop where
  flow : q.stdout ++ (q.phase.block ++ q.stdin).map toupper = input.map toupper
  stdin_read : q.phase.left = true → q.readFailed = false → q.stdin = []

theorem faithful_next (h : Faithful input q) (hn : Next q q') : Faithful input q' := by
  obtain ⟨hflow, hread⟩ := h
  cases hn with
  | read block rest hp happ =>
    refine ⟨?_, fun hl => absurd hl Bool.false_ne_true⟩
    simpa [hp, Phase.block, ← happ] using hflow
  | eof hp hnil => exact ⟨by simpa [hp, Phase.block] using hflow, fun _ _ => hnil⟩
  | error hp =>
    exact ⟨by simpa [hp, Phase.block] using hflow, fun _ hf => absurd hf.symm Bool.false_ne_true⟩
  | send block hp | convert block hp | give block hp | take block hp =>
    exact ⟨by simpa [hp, Phase.block] using hflow, fun hl => absurd hl Bool.false_ne_true⟩
  | print block hp =>
    refine ⟨?_, fun hl => absurd hl Bool.false_ne_true⟩
    simpa [hp, Phase.block, Block.upper] using hflow
  | childEof hp =>
    exact ⟨by simpa [hp, Phase.block] using hflow, fun _ => hread (by rw [hp]; rfl)⟩

/-- The steps that are left in the turn of a phase. -/
def Phase.weight : Phase → ℕ
  | .writing _ => 7
  | .sent _ => 6
  | .converted _ => 5
  | .returned _ => 4
  | .printing _ => 3
  | .reading => 2
  | .closing => 1
  | .ended => 0

def Sequential.weight (q : Sequential) : ℕ := 7 * q.stdin.length + q.phase.weight

theorem weight_next (hn : Next q q') : q'.weight < q.weight := by
  cases hn with
  | read block rest hp happ =>
    have hpos := List.length_pos_of_ne_nil block.2.1
    simp only [Sequential.weight, hp, Phase.weight, ← happ, List.length_append]
    omega
  | eof hp | error hp | send _ hp | convert _ hp | give _ hp | take _ hp | print _ hp
  | childEof hp => simp [Sequential.weight, hp, Phase.weight]

theorem ended_of_stuck (hcap : bufSize ≤ cap) (hs : (machine input cap).Stuck q.state) :
    q.phase = .ended := by
  obtain ⟨phase, stdin, readFailed, stdout⟩ := q
  cases phase with
  | reading =>
    have h := hs .stdinError
    simp [machine, Sequential.state, parentStep, childStep] at h
  | writing block =>
    have h := hs .writeOutbound
    simp [machine, Sequential.state, parentStep, childStep,
      writeAtomic_nil block.2.1 (block.2.2.trans hcap)] at h
  | sent block =>
    have h := hs .childRead
    simp [machine, Sequential.state, parentStep, childStep, block.readAvailable_self] at h
  | converted block =>
    have h := hs .childWrite
    simp [machine, Sequential.state, parentStep, childStep,
      writeAtomic_nil block.upper_ne_nil (block.length_upper.trans hcap)] at h
  | returned block =>
    have h := hs .readInbound
    simp [machine, Sequential.state, parentStep, childStep, block.readAvailable_upper] at h
  | printing block =>
    have h := hs .writeStdout
    simp [machine, Sequential.state, parentStep, childStep] at h
  | closing =>
    have h := hs .childEof
    simp [machine, Sequential.state, parentStep, childStep] at h
  | ended => rfl

def State.Ended (s : State) : Prop := s.parent = .exited ∧ s.child = .exited

/-- Before the first read. -/
def Sequential.start (input : List UInt8) : Sequential := ⟨.reading, input, false, []⟩

theorem faithful_start (input : List UInt8) : Faithful input (Sequential.start input) :=
  ⟨rfl, fun h => absurd h Bool.false_ne_true⟩

theorem step_faithful (q : Sequential) (a : Act) (s' : State) (h : Faithful input q)
    (ha : (machine input cap).step q.state a = some s') :
    ∃ q', Faithful input q' ∧ s' = q'.state ∧ q'.weight < q.weight := by
  obtain ⟨q', hn, rfl⟩ := next_of_step ha
  exact ⟨q', faithful_next h hn, rfl, weight_next hn⟩

theorem sequential_of_reachable (hs : (machine input cap).Reachable s) :
    ∃ q, Faithful input q ∧ s = q.state := by
  refine hs.invariant (I := fun s => ∃ q, Faithful input q ∧ s = q.state) ?_ ?_
  · rintro _ rfl
    exact ⟨Sequential.start input, faithful_start input, rfl⟩
  · rintro _ a s' ⟨q, h, rfl⟩ ha
    obtain ⟨q', h', hs', -⟩ := step_faithful q a s' h ha
    exact ⟨q', h', hs'⟩

theorem left_of_parent_exited (h : q.state.parent = .exited) : q.phase.left = true := by
  obtain ⟨phase, stdin, readFailed, stdout⟩ := q
  cases phase with
  | closing | ended => rfl
  | _ => exact absurd h (by simp [Sequential.state])

theorem block_of_left {p : Phase} (h : p.left = true) : p.block = [] := by
  cases p with
  | closing | ended => rfl
  | _ => exact absurd h Bool.false_ne_true

theorem parent_of_child_exited (h : q.state.child = .exited) : q.state.parent = .exited := by
  obtain ⟨phase, stdin, readFailed, stdout⟩ := q
  cases phase with
  | ended => rfl
  | _ => exact absurd h (by simp [Sequential.state])

theorem state_data (q : Sequential) :
    q.state.stdin = q.stdin ∧ q.state.readFailed = q.readFailed ∧ q.state.stdout = q.stdout := by
  obtain ⟨phase, stdin, readFailed, stdout⟩ := q
  cases phase <;> exact ⟨rfl, rfl, rfl⟩

/-- Both processes always come to their end, the child after the parent, and the parent then has
printed all that it has read, in upper case: no block is split and none is left in a pipe. -/
theorem change_case_completes (input : List UInt8) (cap : ℕ) (hcap : pipeBuf ≤ cap) :
    (machine input cap).Completes State.Ended ∧
      ∀ s, (machine input cap).Reachable s →
        s.stdout <+: input.map toupper ∧
        (s.child = .exited → s.parent = .exited) ∧
        (s.parent = .exited →
          s.stdout ++ s.stdin.map toupper = input.map toupper ∧
          (s.readFailed = false → s.stdout = input.map toupper)) := by
  have hbuf : bufSize ≤ cap := le_trans (by decide) hcap
  refine ⟨Machine.completes_of_abstraction (Faithful input) Sequential.state Sequential.weight
    step_faithful ?_ ?_, fun s hs => ?_⟩
  · rintro _ rfl
    exact ⟨Sequential.start input, faithful_start input, rfl⟩
  · intro q _ hs
    have hp := ended_of_stuck hbuf hs
    obtain ⟨phase, stdin, readFailed, stdout⟩ := q
    obtain rfl : phase = .ended := hp
    exact ⟨rfl, rfl⟩
  · obtain ⟨q, ⟨hflow, hread⟩, rfl⟩ := sequential_of_reachable hs
    obtain ⟨hin, hfailed, hout⟩ := state_data q
    refine ⟨?_, parent_of_child_exited, fun hexited => ?_⟩
    · rw [hout, ← hflow]
      exact List.prefix_append _ _
    · have hleft := left_of_parent_exited hexited
      rw [block_of_left hleft, List.nil_append] at hflow
      rw [hin, hfailed, hout]
      refine ⟨hflow, fun hok => ?_⟩
      rw [← hflow, hread hleft hok, List.map_nil, List.append_nil]

theorem change_case_completes_hello :
    (machine [104, 105] pipeBuf).Completes State.Ended ∧
      ∀ s, (machine [104, 105] pipeBuf).Reachable s → s.parent = .exited → s.readFailed = false →
        s.stdout = [72, 73] := by
  obtain ⟨hcompletes, hend⟩ := change_case_completes [104, 105] pipeBuf le_rfl
  exact ⟨hcompletes, fun s hs hexited hok => ((hend s hs).2.2 hexited).2 hok⟩

end Tlpi.Pipes.ChangeCase
