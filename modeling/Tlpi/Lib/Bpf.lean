import Mathlib.Tactic

/-! Classic BPF programs, as far as seccomp filters need them, and the data that the kernel gives to
a filter. Jumps only go forward, so that a program is run by recursion on the instructions that are
left, with the number of those that a jump passes over. -/

namespace Tlpi.Lib.Bpf

/-- `BPF_JEQ`, `BPF_JGT`, `BPF_JGE` and `BPF_JSET`. -/
inductive Cond
  | jeq | jgt | jge | jset
  deriving DecidableEq

def Cond.holds : Cond → BitVec 32 → BitVec 32 → Bool
  | jeq, a, k => a = k
  | jgt, a, k => k < a
  | jge, a, k => k ≤ a
  | jset, a, k => a &&& k ≠ 0

inductive Insn
  /-- `BPF_LD | BPF_W | BPF_ABS` -/
  | ldAbs (k : ℕ)
  | ja (k : ℕ)
  /-- `BPF_JMP | cond | BPF_K` -/
  | jump (cond : Cond) (k : BitVec 32) (jt jf : ℕ)
  /-- `BPF_RET | BPF_K` -/
  | ret (k : BitVec 32)
  deriving DecidableEq

variable (load : ℕ → Option (BitVec 32))

/-- The value that is returned when `skip` instructions are passed over and the accumulator is `a`;
`none` at a bad load or past the end of the program. -/
def exec : List Insn → ℕ → BitVec 32 → Option (BitVec 32)
  | [], _, _ => none
  | _ :: rest, skip + 1, a => exec rest skip a
  | .ldAbs k :: rest, 0, _ =>
    match load k with
    | some a => exec rest 0 a
    | none => none
  | .ja k :: rest, 0, a => exec rest k a
  | .jump cond k jt jf :: rest, 0, a => exec rest (if cond.holds a k then jt else jf) a
  | .ret k :: _, 0, _ => some k

def run (prog : List Insn) : Option (BitVec 32) := exec load prog 0 0

section Exec

variable {load} {rest : List Insn} {a : BitVec 32}

theorem exec_skip (i : Insn) (skip : ℕ) :
    exec load (i :: rest) (skip + 1) a = exec load rest skip a := by
  cases i <;> rfl

theorem exec_ldAbs {k : ℕ} {v : BitVec 32} (h : load k = some v) :
    exec load (.ldAbs k :: rest) 0 a = exec load rest 0 v := by
  rw [exec, h]

theorem exec_jump_true {cond : Cond} {k : BitVec 32} {jt jf : ℕ} (h : cond.holds a k = true) :
    exec load (.jump cond k jt jf :: rest) 0 a = exec load rest jt a := by
  rw [exec, if_pos h]

theorem exec_jump_false {cond : Cond} {k : BitVec 32} {jt jf : ℕ} (h : cond.holds a k = false) :
    exec load (.jump cond k jt jf :: rest) 0 a = exec load rest jf a := by
  rw [exec, if_neg (by simp [h])]

theorem exec_ret (k : BitVec 32) : exec load (.ret k :: rest) 0 a = some k := rfl

theorem exec_ja (k : ℕ) : exec load (.ja k :: rest) 0 a = exec load rest k a := rfl

/-- A test that returns at once if the condition holds, and goes on otherwise. -/
theorem exec_return_if (cond : Cond) (k r : BitVec 32) :
    exec load (.jump cond k 0 1 :: .ret r :: rest) 0 a =
      if cond.holds a k = true then some r else exec load rest 0 a := by
  split_ifs with h
  · rw [exec_jump_true h, exec_ret]
  · rw [exec_jump_false (Bool.not_eq_true _ ▸ h), exec_skip]

theorem exec_return_if_eq (k r : BitVec 32) :
    exec load (.jump .jeq k 0 1 :: .ret r :: rest) 0 a =
      if a = k then some r else exec load rest 0 a := by
  rw [exec_return_if]
  simp only [Cond.holds, decide_eq_true_eq]

end Exec

/-- `struct seccomp_data` -/
structure SeccompData where
  nr : BitVec 32
  arch : BitVec 32
  instructionPointer : BitVec 64
  args : Fin 6 → BitVec 64

def SeccompData.words (data : SeccompData) : List (BitVec 32) :=
  let halves (v : BitVec 64) : List (BitVec 32) := [v.extractLsb' 0 32, v.extractLsb' 32 32]
  data.nr :: data.arch :: halves data.instructionPointer ++
    (List.finRange 6).flatMap fun i => halves (data.args i)

/-- The word at a byte offset, on a little-endian machine. -/
def SeccompData.word (data : SeccompData) (off : ℕ) : Option (BitVec 32) :=
  if off % 4 = 0 then data.words[off / 4]? else none

end Tlpi.Lib.Bpf
