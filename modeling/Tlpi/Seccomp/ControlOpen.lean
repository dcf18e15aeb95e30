import Tlpi.Seccomp.Multiarch

/-! The filter of `seccomp/seccomp_control_open.c`, which looks at the flags that a file is opened
with. They are the second argument of `open()` and the third one of `openat()`. -/

namespace Tlpi.Seccomp.ControlOpen
open Lib.Bpf
open Multiarch (AUDIT_ARCH_X86_64 SECCOMP_RET_KILL_PROCESS SECCOMP_RET_ERRNO SECCOMP_RET_ALLOW
  X32_SYSCALL_BIT offsetNr offsetArch word_arch word_nr)

def NR_open : BitVec 32 := 2
def NR_openat : BitVec 32 := 257

def SECCOMP_RET_DATA : BitVec 32 := 0x0000ffff
def ENOTSUP : BitVec 32 := 95

def O_WRONLY : BitVec 32 := 0o1
def O_RDWR : BitVec 32 := 0o2
def O_CREAT : BitVec 32 := 0o100

-- `offsetof(struct seccomp_data, args[i])`
def offsetArgs (i : ℕ) : ℕ := 16 + 8 * i

/-- The array in `install_filter()`. -/
def filter : List Insn :=
  [.ldAbs offsetArch,
    .jump .jeq AUDIT_ARCH_X86_64 0 2,
    .ldAbs offsetNr,
    .jump .jge X32_SYSCALL_BIT 0 1,
    .ret SECCOMP_RET_KILL_PROCESS,
    .jump .jeq NR_open 2 0,
    .jump .jeq NR_openat 3 0,
    .ret SECCOMP_RET_ALLOW,
    .ldAbs (offsetArgs 1),
    .ja 1,
    .ldAbs (offsetArgs 2),
    .jump .jset O_CREAT 0 1,
    .ret SECCOMP_RET_KILL_PROCESS,
    .jump .jset (O_WRONLY ||| O_RDWR) 0 1,
    .ret (SECCOMP_RET_ERRNO ||| (ENOTSUP &&& SECCOMP_RET_DATA)),
    .ret SECCOMP_RET_ALLOW]

/-- The low half of an argument. -/
def low (data : SeccompData) (i : Fin 6) : BitVec 32 := (data.args i).extractLsb' 0 32

/-! ## What the filter is for -/

/-- Files must not be created, and opening them for writing fails. -/
def flagsPolicy (flags : BitVec 32) : BitVec 32 :=
  if flags &&& O_CREAT ≠ 0 then SECCOMP_RET_KILL_PROCESS
  else if flags &&& O_WRONLY ≠ 0 ∨ flags &&& O_RDWR ≠ 0 then SECCOMP_RET_ERRNO ||| ENOTSUP
  else SECCOMP_RET_ALLOW

/-- `secondArg` and `thirdArg` are the low halves of these arguments. -/
def policy (arch nr secondArg thirdArg : BitVec 32) : BitVec 32 :=
  if arch ≠ AUDIT_ARCH_X86_64 ∨ X32_SYSCALL_BIT ≤ nr then SECCOMP_RET_KILL_PROCESS
  else if nr ≠ NR_open ∧ nr ≠ NR_openat then SECCOMP_RET_ALLOW
  else flagsPolicy (if nr = NR_open then secondArg else thirdArg)

/-- Two system calls that the filter need not tell apart. -/
structure Alike (data data' : SeccompData) : Prop where
  arch : data'.arch = data.arch
  nr : data'.nr = data.nr
  open_flags : data.nr = NR_open → low data' 1 = low data 1
  openat_flags : data.nr = NR_openat → low data' 2 = low data 2

/-! ## What the filter returns -/

theorem word_secondArg (data : SeccompData) :
    data.word (offsetArgs 1) = some (low data 1) := rfl

theorem word_thirdArg (data : SeccompData) :
    data.word (offsetArgs 2) = some (low data 2) := rfl

theorem and_or_ne_zero_iff {flags k k' : BitVec 32} :
    flags &&& (k ||| k') ≠ 0 ↔ flags &&& k ≠ 0 ∨ flags &&& k' ≠ 0 := by
  rw [BitVec.and_or_distrib_left, ← not_and_or]
  exact not_congr BitVec.or_eq_zero_iff

theorem exec_flags (load : ℕ → Option (BitVec 32)) (flags : BitVec 32) :
    exec load (filter.drop 11) 0 flags = some (flagsPolicy flags) := by
  change exec load (.jump .jset O_CREAT 0 1 :: .ret _ :: .jump .jset (O_WRONLY ||| O_RDWR) 0 1 ::
    .ret _ :: [.ret SECCOMP_RET_ALLOW]) 0 flags = _
  rw [exec_return_if, exec_return_if, exec_ret]
  simp only [Cond.holds, decide_eq_true_eq, and_or_ne_zero_iff]
  unfold flagsPolicy
  split_ifs <;> rfl

/-- From the first instruction after the test of the architecture on. -/
theorem exec_nr (data : SeccompData) (h : ¬ X32_SYSCALL_BIT ≤ data.nr) :
    exec data.word (filter.drop 3) 0 data.nr =
      some (if data.nr ≠ NR_open ∧ data.nr ≠ NR_openat then SECCOMP_RET_ALLOW
        else flagsPolicy (if data.nr = NR_open then low data 1 else low data 2)) := by
  have hflags := exec_flags data.word
  change exec data.word (.jump .jge X32_SYSCALL_BIT 0 1 :: .ret _ :: .jump .jeq NR_open 2 0 ::
    .jump .jeq NR_openat 3 0 :: .ret SECCOMP_RET_ALLOW :: .ldAbs (offsetArgs 1) :: .ja 1 ::
    .ldAbs (offsetArgs 2) :: filter.drop 11) 0 data.nr = _
  rw [exec_return_if, if_neg (by simpa [Cond.holds] using h)]
  by_cases hopen : data.nr = NR_open
  · rw [exec_jump_true (by simp [Cond.holds, hopen]), exec_skip, exec_skip,
      exec_ldAbs (word_secondArg data), exec_ja, exec_skip, hflags, if_neg (by simp [hopen]),
      if_pos hopen]
  · rw [exec_jump_false (by simp [Cond.holds, hopen])]
    by_cases hopenat : data.nr = NR_openat
    · rw [exec_jump_true (by simp [Cond.holds, hopenat]), exec_skip, exec_skip, exec_skip,
        exec_ldAbs (word_thirdArg data), hflags, if_neg (by simp [hopenat]), if_neg hopen]
    · rw [exec_jump_false (by simp [Cond.holds, hopenat]), exec_ret, if_pos ⟨hopen, hopenat⟩]

theorem run_filter_eq (data : SeccompData) :
    run data.word filter = some (policy data.arch data.nr (low data 1) (low data 2)) := by
  have hnr := exec_nr data
  change exec data.word (.ldAbs offsetArch :: .jump .jeq AUDIT_ARCH_X86_64 0 2 ::
    .ldAbs offsetNr :: .jump .jge X32_SYSCALL_BIT 0 1 :: .ret SECCOMP_RET_KILL_PROCESS ::
    filter.drop 5) 0 0 = _
  rw [exec_ldAbs (word_arch data), policy]
  by_cases harch : data.arch = AUDIT_ARCH_X86_64
  · rw [exec_jump_true (by simp [Cond.holds, harch]), exec_ldAbs (word_nr data)]
    by_cases hx32 : X32_SYSCALL_BIT ≤ data.nr
    · rw [exec_return_if, if_pos (by simpa [Cond.holds] using hx32), if_pos (.inr hx32)]
    · rw [if_neg (by simp [harch, hx32])]
      exact hnr hx32
  · rw [exec_jump_false (by simp [Cond.holds, harch]), exec_skip, exec_skip, exec_ret,
      if_pos (.inl harch)]

theorem policy_congr {data data' : SeccompData} (h : Alike data data') :
    policy data'.arch data'.nr (low data' 1) (low data' 2) =
      policy data.arch data.nr (low data 1) (low data 2) := by
  unfold policy
  rw [h.arch, h.nr]
  split_ifs with _ hother hopen
  · rfl
  · rfl
  · rw [h.open_flags hopen]
  · rw [h.openat_flags (not_and_not_right.mp hother hopen)]

/-- The jumps lead to the flags of the system call that was made, and no other word decides. -/
theorem seccomp_control_open_policy (data : SeccompData) :
    run data.word filter = some (policy data.arch data.nr (low data 1) (low data 2)) ∧
      ∀ data', Alike data data' → run data'.word filter = run data.word filter := by
  refine ⟨run_filter_eq data, ?_⟩
  intro data' h
  rw [run_filter_eq, run_filter_eq, policy_congr h]

/-- `openat()` for writing, with the bits of `O_CREAT` in the argument before the flags. -/
example : run (⟨NR_openat, AUDIT_ARCH_X86_64, 0, ![0, 0o100, 1, 0, 0, 0]⟩ : SeccompData).word
    filter = some (SECCOMP_RET_ERRNO ||| ENOTSUP) := by decide

end Tlpi.Seccomp.ControlOpen
