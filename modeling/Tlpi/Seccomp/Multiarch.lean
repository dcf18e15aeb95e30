import Tlpi.Lib.Bpf

/-! The filter of `seccomp/seccomp_multiarch.c`. It tests the architecture once and the system call
number afterwards, so that the number which `mq_notify()` has on one architecture is also caught
where it belongs to another system call. -/

namespace Tlpi.Seccomp.Multiarch
open Lib.Bpf

def AUDIT_ARCH_X86_64 : BitVec 32 := 0xc000003e
def AUDIT_ARCH_I386 : BitVec 32 := 0x40000003

def SECCOMP_RET_KILL_PROCESS : BitVec 32 := 0x80000000
def SECCOMP_RET_ERRNO : BitVec 32 := 0x00050000
def SECCOMP_RET_ALLOW : BitVec 32 := 0x7fff0000

def X32_SYSCALL_BIT : BitVec 32 := 0x40000000

def NR_mq_notify_x86_64 : BitVec 32 := 244
def NR_mq_notify_i386 : BitVec 32 := 281
def NR_mq_notify_x32 : BitVec 32 := 527

-- `offsetof(struct seccomp_data, nr)` and `offsetof(struct seccomp_data, arch)`
def offsetNr : ℕ := 0
def offsetArch : ℕ := 4

/-- The array in `install_filter()`. -/
def filter : List Insn :=
  [.ldAbs offsetArch,
    .jump .jeq AUDIT_ARCH_X86_64 2 0,
    .jump .jeq AUDIT_ARCH_I386 1 0,
    .ret SECCOMP_RET_KILL_PROCESS,
    .ldAbs offsetNr,
    .jump .jeq NR_mq_notify_x86_64 0 1,
    .ret (SECCOMP_RET_ERRNO ||| NR_mq_notify_x86_64),
    .jump .jeq NR_mq_notify_i386 0 1,
    .ret (SECCOMP_RET_ERRNO ||| NR_mq_notify_i386),
    .jump .jeq (NR_mq_notify_x32 + X32_SYSCALL_BIT) 0 1,
    .ret (SECCOMP_RET_ERRNO ||| NR_mq_notify_x32),
    .ret SECCOMP_RET_ALLOW]

/-- What the filter is for: `mq_notify()` fails on each ABI, everything else is allowed. -/
def policy (data : SeccompData) : BitVec 32 :=
  if data.arch ≠ AUDIT_ARCH_X86_64 ∧ data.arch ≠ AUDIT_ARCH_I386 then SECCOMP_RET_KILL_PROCESS
  else if data.arch = AUDIT_ARCH_X86_64 ∧ data.nr = NR_mq_notify_x86_64 then
    SECCOMP_RET_ERRNO ||| NR_mq_notify_x86_64
  else if data.arch = AUDIT_ARCH_I386 ∧ data.nr = NR_mq_notify_i386 then
    SECCOMP_RET_ERRNO ||| NR_mq_notify_i386
  else if data.arch = AUDIT_ARCH_X86_64 ∧ data.nr = NR_mq_notify_x32 + X32_SYSCALL_BIT then
    SECCOMP_RET_ERRNO ||| NR_mq_notify_x32
  else SECCOMP_RET_ALLOW

/-- The system call has the number of `mq_notify()` on another architecture. -/
def Confused (data : SeccompData) : Prop :=
  data.arch = AUDIT_ARCH_X86_64 ∧ data.nr = NR_mq_notify_i386 ∨
    data.arch = AUDIT_ARCH_I386 ∧
      (data.nr = NR_mq_notify_x86_64 ∨ data.nr = NR_mq_notify_x32 + X32_SYSCALL_BIT)

/-! ## What the filter returns -/

/-- The filter from the load of the system call number on, where the architecture is forgotten. -/
def byNumber (nr : BitVec 32) : BitVec 32 :=
  if nr = NR_mq_notify_x86_64 then SECCOMP_RET_ERRNO ||| NR_mq_notify_x86_64
  else if nr = NR_mq_notify_i386 then SECCOMP_RET_ERRNO ||| NR_mq_notify_i386
  else if nr = NR_mq_notify_x32 + X32_SYSCALL_BIT then SECCOMP_RET_ERRNO ||| NR_mq_notify_x32
  else SECCOMP_RET_ALLOW

theorem word_arch (data : SeccompData) : data.word offsetArch = some data.arch := rfl

theorem word_nr (data : SeccompData) : data.word offsetNr = some data.nr := rfl

theorem exec_byNumber (data : SeccompData) (a : BitVec 32) :
    exec data.word (filter.drop 4) 0 a = some (byNumber data.nr) := by
  change exec data.word (.ldAbs offsetNr :: filter.drop 5) 0 a = _
  rw [exec_ldAbs (word_nr data)]
  change exec data.word (.jump .jeq NR_mq_notify_x86_64 0 1 :: .ret _ ::
    .jump .jeq NR_mq_notify_i386 0 1 :: .ret _ ::
    .jump .jeq (NR_mq_notify_x32 + X32_SYSCALL_BIT) 0 1 :: .ret _ ::
    [.ret SECCOMP_RET_ALLOW]) 0 data.nr = _
  rw [exec_return_if_eq, exec_return_if_eq, exec_return_if_eq, exec_ret]
  unfold byNumber
  split_ifs <;> rfl

theorem run_filter (data : SeccompData) : run data.word filter =
    some (if data.arch = AUDIT_ARCH_X86_64 ∨ data.arch = AUDIT_ARCH_I386 then byNumber data.nr
      else SECCOMP_RET_KILL_PROCESS) := by
  have hnumber := exec_byNumber data data.arch
  change exec data.word (.ldAbs offsetArch :: .jump .jeq AUDIT_ARCH_X86_64 2 0 ::
    .jump .jeq AUDIT_ARCH_I386 1 0 :: .ret SECCOMP_RET_KILL_PROCESS :: filter.drop 4) 0 0 = _
  rw [exec_ldAbs (word_arch data)]
  by_cases hx : data.arch = AUDIT_ARCH_X86_64
  · rw [exec_jump_true (by simp [Cond.holds, hx]), exec_skip, exec_skip, hnumber,
      if_pos (.inl hx)]
  · rw [exec_jump_false (by simp [Cond.holds, hx])]
    by_cases hi : data.arch = AUDIT_ARCH_I386
    · rw [exec_jump_true (by simp [Cond.holds, hi]), exec_skip, hnumber, if_pos (.inr hi)]
    · rw [exec_jump_false (by simp [Cond.holds, hi]), exec_ret, if_neg (by simp [hx, hi])]

theorem arch_ne : AUDIT_ARCH_X86_64 ≠ AUDIT_ARCH_I386 := by decide

theorem byNumber_eq_policy_x86_64 {data : SeccompData} (h : data.arch = AUDIT_ARCH_X86_64) :
    byNumber data.nr = policy data ↔ data.nr ≠ NR_mq_notify_i386 := by
  have hne := arch_ne
  unfold byNumber policy
  simp only [h, hne, ne_eq, not_true_eq_false, false_and, if_false, true_and]
  by_cases h1 : data.nr = NR_mq_notify_x86_64
  · rw [h1]
    decide
  by_cases h2 : data.nr = NR_mq_notify_i386
  · rw [h2]
    decide
  · simp only [h1, h2, if_false, not_false_eq_true]

theorem byNumber_eq_policy_i386 {data : SeccompData} (h : data.arch = AUDIT_ARCH_I386) :
    byNumber data.nr = policy data ↔
      ¬ (data.nr = NR_mq_notify_x86_64 ∨ data.nr = NR_mq_notify_x32 + X32_SYSCALL_BIT) := by
  have hne := arch_ne.symm
  unfold byNumber policy
  simp only [h, hne, ne_eq, not_true_eq_false, and_false, if_false, false_and, true_and]
  by_cases h1 : data.nr = NR_mq_notify_x86_64
  · rw [h1]
    decide
  by_cases h2 : data.nr = NR_mq_notify_x32 + X32_SYSCALL_BIT
  · rw [h2]
    decide
  · simp only [h1, h2, if_false, or_self, not_false_eq_true]

/-- The filter implements its policy exactly for the system calls that do not have the number of
`mq_notify()` on another architecture. -/
theorem seccomp_multiarch_policy_iff (data : SeccompData) :
    run data.word filter = some (policy data) ↔ ¬ Confused data := by
  rw [run_filter, Option.some_inj]
  by_cases hx : data.arch = AUDIT_ARCH_X86_64
  · rw [if_pos (.inl hx), byNumber_eq_policy_x86_64 hx]
    simp [Confused, hx, arch_ne]
  · by_cases hi : data.arch = AUDIT_ARCH_I386
    · rw [if_pos (.inr hi), byNumber_eq_policy_i386 hi]
      simp [Confused, hi, arch_ne.symm]
    · rw [if_neg (by simp [hx, hi])]
      simp [policy, Confused, hx, hi]

/-- `epoll_pwait()` has the number 281 on x86-64. -/
def epollPwait : SeccompData := ⟨281, AUDIT_ARCH_X86_64, 0, fun _ => 0⟩

theorem seccomp_multiarch_fails_epoll_pwait :
    run epollPwait.word filter = some (SECCOMP_RET_ERRNO ||| NR_mq_notify_i386) ∧
      policy epollPwait = SECCOMP_RET_ALLOW ∧
      run epollPwait.word filter ≠ some (policy epollPwait) := by
  decide

end Tlpi.Seccomp.Multiarch
