import Tlpi.Seccomp.ControlOpen

/-! The filter of `seccomp/seccomp_arg64.c`, which compares an argument of 64 bits in two halves,
and the seeks that the program tries under it. -/

namespace Tlpi.Seccomp.Arg64
open Lib.Bpf
open Multiarch (AUDIT_ARCH_X86_64 SECCOMP_RET_KILL_PROCESS SECCOMP_RET_ERRNO SECCOMP_RET_ALLOW
  X32_SYSCALL_BIT offsetNr offsetArch word_arch word_nr)
open ControlOpen (offsetArgs low word_secondArg SECCOMP_RET_DATA)

def NR_lseek : BitVec 32 := 8

/-- The array in `install_filter()`. -/
def filter : List Insn :=
  [.ldAbs offsetArch,
    .jump .jeq AUDIT_ARCH_X86_64 0 2,
    .ldAbs offsetNr,
    .jump .jge X32_SYSCALL_BIT 0 1,
    .ret SECCOMP_RET_KILL_PROCESS,
    .jump .jeq NR_lseek 1 0,
    .ret SECCOMP_RET_ALLOW,
    .ldAbs (offsetArgs 1 + 4),
    .jump .jeq 0 1 0,
    .ret (SECCOMP_RET_ERRNO ||| 2),
    .ldAbs (offsetArgs 1),
    .jump .jgt 1000 0 1,
    .ret (SECCOMP_RET_ERRNO ||| 1),
    .ret SECCOMP_RET_ALLOW]

/-- What the filter is for, with the offset in one piece. -/
def offsetPolicy (offset : BitVec 64) : BitVec 32 :=
  if offset.toNat ≤ 1000 then SECCOMP_RET_ALLOW
  else if offset.toNat < 2 ^ 32 then SECCOMP_RET_ERRNO ||| 1
  else SECCOMP_RET_ERRNO ||| 2

def policy (data : SeccompData) : BitVec 32 :=
  if data.arch ≠ AUDIT_ARCH_X86_64 ∨ X32_SYSCALL_BIT ≤ data.nr then SECCOMP_RET_KILL_PROCESS
  else if data.nr ≠ NR_lseek then SECCOMP_RET_ALLOW
  else offsetPolicy (data.args 1)

/-- The high half of an argument. -/
def high (data : SeccompData) (i : Fin 6) : BitVec 32 := (data.args i).extractLsb' 32 32

theorem word_high (data : SeccompData) : data.word (offsetArgs 1 + 4) = some (high data 1) := rfl

theorem toNat_low (data : SeccompData) :
    (low data 1).toNat = (data.args 1).toNat % 2 ^ 32 := by
  simp [low]

theorem toNat_high (data : SeccompData) :
    (high data 1).toNat = (data.args 1).toNat / 2 ^ 32 := by
  have hlt := (data.args 1).isLt
  rw [high, BitVec.extractLsb'_toNat, Nat.shiftRight_eq_div_pow]
  omega

/-- The two comparisons together are one of the whole offset. -/
theorem exec_offset (data : SeccompData) (a : BitVec 32) :
    exec data.word (filter.drop 7) 0 a = some (offsetPolicy (data.args 1)) := by
  have hlow := toNat_low data
  have hhigh := toNat_high data
  change exec data.word (.ldAbs (offsetArgs 1 + 4) :: .jump .jeq 0 1 0 :: .ret _ ::
    .ldAbs (offsetArgs 1) :: .jump .jgt 1000 0 1 :: .ret _ :: [.ret SECCOMP_RET_ALLOW]) 0 a = _
  rw [exec_ldAbs (word_high data), offsetPolicy]
  by_cases hzero : high data 1 = 0
  · have hsmall : (data.args 1).toNat < 2 ^ 32 := by
      have hquot : 0 = (data.args 1).toNat / 2 ^ 32 := by rw [← hhigh, hzero]; rfl
      omega
    rw [exec_jump_true (by simp [Cond.holds, hzero]), exec_skip,
      exec_ldAbs (word_secondArg data), exec_return_if, exec_ret]
    have hcond : Cond.holds .jgt (low data 1) 1000 = true ↔ ¬ (data.args 1).toNat ≤ 1000 := by
      rw [Cond.holds, decide_eq_true_eq, BitVec.lt_def, hlow, Nat.mod_eq_of_lt hsmall, not_le]
      rfl
    by_cases hle : (data.args 1).toNat ≤ 1000
    · rw [if_neg (mt hcond.mp (not_not.mpr hle)), if_pos hle]
    · rw [if_pos (hcond.mpr hle), if_neg hle, if_pos hsmall]
  · have hlarge : ¬ (data.args 1).toNat < 2 ^ 32 := by
      intro hlt
      refine hzero (BitVec.eq_of_toNat_eq ?_)
      rw [hhigh, Nat.div_eq_of_lt hlt]
      rfl
    rw [exec_jump_false (by simpa [Cond.holds] using hzero), exec_ret, if_neg (by omega),
      if_neg hlarge]

theorem run_filter_policy (data : SeccompData) : run data.word filter = some (policy data) := by
  have hoffset := exec_offset data data.nr
  change exec data.word (.ldAbs offsetArch :: .jump .jeq AUDIT_ARCH_X86_64 0 2 ::
    .ldAbs offsetNr :: .jump .jge X32_SYSCALL_BIT 0 1 :: .ret SECCOMP_RET_KILL_PROCESS ::
    .jump .jeq NR_lseek 1 0 :: .ret SECCOMP_RET_ALLOW :: filter.drop 7) 0 0 = _
  rw [exec_ldAbs (word_arch data), policy]
  by_cases harch : data.arch = AUDIT_ARCH_X86_64
  · rw [exec_jump_true (by simp [Cond.holds, harch]), exec_ldAbs (word_nr data), exec_return_if]
    by_cases hx32 : X32_SYSCALL_BIT ≤ data.nr
    · rw [if_pos (by simpa [Cond.holds] using hx32), if_pos (.inr hx32)]
    · rw [if_neg (by simpa [Cond.holds] using hx32), if_neg (by simp [harch, hx32])]
      by_cases hlseek : data.nr = NR_lseek
      · rw [exec_jump_true (by simp [Cond.holds, hlseek]), exec_skip, hoffset,
          if_neg (not_not.mpr hlseek)]
      · rw [exec_jump_false (by simp [Cond.holds, hlseek]), exec_ret, if_pos hlseek]
  · rw [exec_jump_false (by simp [Cond.holds, harch]), exec_skip, exec_skip, exec_ret,
      if_pos (.inl harch)]

/-! ## The seeks -/

inductive Outcome
  | succeeded
  | failed (errno : BitVec 32)
  /-- The process is killed. -/
  | killed
  deriving DecidableEq

/-- What the caller of `lseek()` on `/dev/zero` sees for the value that the filter returns: a seek
that is made returns 0. -/
def outcome (r : BitVec 32) : Outcome :=
  if r = SECCOMP_RET_ALLOW then .succeeded
  else if r &&& 0x7fff0000 = SECCOMP_RET_ERRNO then .failed (r &&& SECCOMP_RET_DATA)
  else .killed

/-- `seek_test()`. -/
def seekTest (instructionPointer fd offset : BitVec 64) : Outcome :=
  let data := SeccompData.mk NR_lseek AUDIT_ARCH_X86_64 instructionPointer
    ![fd, offset, 0, 0, 0, 0]
  (run data.word filter).elim .killed outcome

theorem seekTest_eq (ip fd offset : BitVec 64) :
    seekTest ip fd offset = outcome (offsetPolicy offset) := by
  rw [seekTest, run_filter_policy, policy, if_neg, if_neg]
  · rfl
  · exact not_not.mpr rfl
  · change ¬ (AUDIT_ARCH_X86_64 ≠ AUDIT_ARCH_X86_64 ∨ X32_SYSCALL_BIT ≤ NR_lseek)
    decide

/-- The filter, which sees one half of the offset at a time, decides by the whole of it. A seek to
at most 1000 succeeds; one beyond fails with 1 in `errno`, or with 2 if it takes more than 32 bits,
as every negative offset does. -/
theorem seccomp_arg64_exact (data : SeccompData) :
    run data.word filter = some (policy data) ∧
      ∀ ip fd offset : BitVec 64, seekTest ip fd offset =
        if offset.toNat ≤ 1000 then .succeeded
        else if 0 ≤ offset.toInt ∧ offset.toNat < 2 ^ 32 then .failed 1 else .failed 2 := by
  refine ⟨run_filter_policy data, fun ip fd offset => ?_⟩
  have hpos : offset.toNat < 2 ^ 32 → 0 ≤ offset.toInt := by
    intro hlt
    rw [BitVec.toInt_eq_toNat_of_lt (by omega)]
    exact Int.natCast_nonneg _
  rw [seekTest_eq, offsetPolicy]
  by_cases hle : offset.toNat ≤ 1000
  · rw [if_pos hle, if_pos hle]
    rfl
  rw [if_neg hle, if_neg hle]
  by_cases hlt : offset.toNat < 2 ^ 32
  · rw [if_pos hlt, if_pos ⟨hpos hlt, hlt⟩]
    rfl
  · rw [if_neg hlt, if_neg (mt And.right hlt)]
    rfl

end Tlpi.Seccomp.Arg64
