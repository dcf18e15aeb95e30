import Tlpi.Lib.CString
import Tlpi.Lib.Fds
import Mathlib.Tactic

/-! `ptyMasterOpen()` and `ptyFork()` of the `pty` directory, over the table of descriptors and
`errno` of the caller. Every call that can fail does so or not as the `Kernel` says, and a `close()`
may change `errno` too. -/

namespace Tlpi.Pty.PtyFork
open Lib Fds

def MAX_SNAME : ℕ := 1000
def EOVERFLOW : ℕ := 75

/-- How the calls turn out. -/
structure Kernel (α : Type) where
  /-- The master that `posix_openpt()` opens. -/
  openpt : Except ℕ α
  grantpt : Except ℕ Unit
  unlockpt : Except ℕ Unit
  ptsname : Except ℕ (List Char)
  /-- The process ID of the child. -/
  fork : Except ℕ ℕ
  /-- The slave that the child opens. -/
  slave : Except ℕ α
  /-- The `ioctl()` and `tcsetattr()` calls of the child. -/
  settings : Except ℕ Unit
  /-- What `close()` leaves in `errno`, if it changes it. -/
  closeErrno : Option ℕ

structure Caller (α : Type) where
  fds : Fds α
  errno : ℕ

inductive Result (α : Type)
  /-- -1 is returned. -/
  | error (caller : Caller α)
  /-- `slaveName` is the text in the caller's buffer, if there is one. The child returns 0 with its
  table, or has exited. -/
  | forked (caller : Caller α) (childPid masterFd : ℕ) (slaveName : Option (List Char))
      (child : Option (Fds α))

section Model
variable {α : Type}

def Caller.close (k : Kernel α) (c : Caller α) (fd : ℕ) : Caller α :=
  ⟨Fds.close c.fds fd, k.closeErrno.getD c.errno⟩

/-- What follows each call that fails with the error `e` once the master is open. -/
def Caller.closeAfter (k : Kernel α) (c : Caller α) (fd e : ℕ) : Caller α :=
  let c := { c with errno := e }
  let savedErrno := c.errno
  let c := c.close k fd
  { c with errno := savedErrno }

/-- The descriptor of the master and the text in `slaveName`, or -1. -/
def ptyMasterOpen (k : Kernel α) (snLen : ℕ) (c : Caller α) : Caller α × Option (ℕ × List Char) :=
  match k.openpt with
  | .error e => ({ c with errno := e }, none)
  | .ok master =>
    let masterFd := lowest c.fds
    let c := { c with fds := install c.fds master }
    match k.grantpt with
    | .error e => (c.closeAfter k masterFd e, none)
    | .ok () =>
      match k.unlockpt with
      | .error e => (c.closeAfter k masterFd e, none)
      | .ok () =>
        match k.ptsname with
        | .error e => (c.closeAfter k masterFd e, none)
        | .ok p =>
          if p.length < snLen then (c, some (masterFd, strncpy snLen p))
          else ({ c.close k masterFd with errno := EOVERFLOW }, none)

/-- The child, which closes the descriptor `mfd` of the master; without a table it has exited. -/
def child (k : Kernel α) (mfd : ℕ) (t : Fds α) : Option (Fds α) :=
  let t := Fds.close t mfd
  match k.slave, k.settings with
  | .ok slave, .ok () =>
    let slaveFd := lowest t
    (dup2 (install t slave) slaveFd 0).bind fun t =>
      (dup2 t slaveFd 1).bind fun t =>
        (dup2 t slaveFd 2).map fun t => if slaveFd > 2 then Fds.close t slaveFd else t
  | _, _ => none

def forkSlave (k : Kernel α) (mfd : ℕ) (slaveName : Option (List Char)) (c : Caller α) : Result α :=
  match k.fork with
  | .error e => .error (c.closeAfter k mfd e)
  | .ok childPid => .forked c childPid mfd slaveName (child k mfd c.fds)

/-- `snLen` is the size of the caller's buffer, if there is one. -/
def ptyFork (k : Kernel α) (snLen : Option ℕ) (c : Caller α) : Result α :=
  match ptyMasterOpen k MAX_SNAME c with
  | (c, none) => .error c
  | (c, some (mfd, slname)) =>
    match snLen with
    | none => forkSlave k mfd none c
    | some snLen =>
      if slname.length < snLen then forkSlave k mfd (some (strncpy snLen slname)) c
      else .error { c.close k mfd with errno := EOVERFLOW }

/-- What `ptyMasterOpen()` comes to: the calls in their order up to the first error, with the master
and the name of the slave. -/
def masterPlan (k : Kernel α) (snLen : ℕ) : Except ℕ (α × List Char) := do
  let master ← k.openpt
  k.grantpt
  k.unlockpt
  let name ← k.ptsname
  if name.length < snLen then .ok (master, name) else .error EOVERFLOW

/-- And `ptyFork()`, with the ID of the child. -/
def plan (k : Kernel α) (snLen : Option ℕ) : Except ℕ (α × List Char × ℕ) := do
  let (master, name) ← masterPlan k MAX_SNAME
  if ∀ n ∈ snLen, name.length < n then k.fork.map (master, name, ·) else .error EOVERFLOW

end Model

section Proofs
variable {α : Type} {k : Kernel α} {c c' : Caller α} {master : α} {e : ℕ}

/-- The call has failed: the caller has the descriptors that it had, and `errno` is that of the
failure and not of a `close()`. -/
def Failed (c c' : Caller α) (e : ℕ) : Prop :=
  c'.errno = e ∧ ∀ fd, file c'.fds fd = file c.fds fd

theorem failed_closeAfter (k : Kernel α) (c : Caller α) (master : α) (e : ℕ) :
    Failed c (Caller.closeAfter k { c with fds := install c.fds master } (lowest c.fds) e) e :=
  ⟨rfl, file_close_install c.fds master⟩

theorem failed_eoverflow (k : Kernel α) (c : Caller α) (master : α) :
    Failed c { Caller.close k { c with fds := install c.fds master } (lowest c.fds) with
      errno := EOVERFLOW } EOVERFLOW :=
  ⟨rfl, file_close_install c.fds master⟩

theorem ptyMasterOpen_of_error {snLen : ℕ} (h : masterPlan k snLen = .error e) (c : Caller α) :
    ∃ c', ptyMasterOpen k snLen c = (c', none) ∧ Failed c c' e := by
  have hclose m := failed_closeAfter k c m e
  rcases hopen : k.openpt with e' | master <;> simp only [masterPlan, hopen] at h
  · obtain rfl : e' = e := by simpa [bind, Except.bind] using h
    exact ⟨{ c with errno := e' }, by simp only [ptyMasterOpen, hopen], rfl, fun _ => rfl⟩
  rcases hgrant : k.grantpt with e' | ⟨⟩ <;> simp only [hgrant] at h
  · obtain rfl : e' = e := by simpa [bind, Except.bind] using h
    exact ⟨_, by simp only [ptyMasterOpen, hopen, hgrant], hclose master⟩
  rcases hunlock : k.unlockpt with e' | ⟨⟩ <;> simp only [hunlock] at h
  · obtain rfl : e' = e := by simpa [bind, Except.bind] using h
    exact ⟨_, by simp only [ptyMasterOpen, hopen, hgrant, hunlock], hclose master⟩
  rcases hname : k.ptsname with e' | name <;> simp only [hname] at h
  · obtain rfl : e' = e := by simpa [bind, Except.bind] using h
    exact ⟨_, by simp only [ptyMasterOpen, hopen, hgrant, hunlock, hname], hclose master⟩
  by_cases hlen : name.length < snLen
  · simp [hlen, bind, Except.bind] at h
  · obtain rfl : EOVERFLOW = e := by simpa [hlen, bind, Except.bind] using h
    refine ⟨_, ?_, failed_eoverflow k c master⟩
    simp only [ptyMasterOpen, hopen, hgrant, hunlock, hname, hlen, if_false]

theorem ptyMasterOpen_of_ok {snLen : ℕ} {name : List Char}
    (h : masterPlan k snLen = .ok (master, name)) (c : Caller α) :
    ptyMasterOpen k snLen c =
      ({ c with fds := install c.fds master }, some (lowest c.fds, name)) := by
  rcases hopen : k.openpt with e' | m <;> simp only [masterPlan, hopen] at h
  · simp [bind, Except.bind] at h
  rcases hgrant : k.grantpt with e' | ⟨⟩ <;> simp only [hgrant] at h
  · simp [bind, Except.bind] at h
  rcases hunlock : k.unlockpt with e' | ⟨⟩ <;> simp only [hunlock] at h
  · simp [bind, Except.bind] at h
  rcases hname : k.ptsname with e' | p <;> simp only [hname] at h
  · simp [bind, Except.bind] at h
  by_cases hlen : p.length < snLen
  · obtain ⟨rfl, rfl⟩ : m = master ∧ p = name := by
      simpa [hlen, bind, Except.bind] using h
    simp only [ptyMasterOpen, hopen, hgrant, hunlock, hname, hlen, if_true, strncpy_of_le hlen.le]
  · simp [hlen, bind, Except.bind] at h

/-- Wherever the slave is opened, the child has it as its three standard descriptors, and apart from
these what the caller had. -/
theorem child_eq {slave : α} (hslave : k.slave = .ok slave) (hsettings : k.settings = .ok ())
    (t : Fds α) (master : α) :
    ∃ t', child k (lowest t) (install t master) = some t' ∧
      ∀ fd, file t' fd = if fd ≤ 2 then some slave else file t fd := by
  have hclosed := file_close_install t master
  simp only [child, hslave, hsettings]
  generalize Fds.close (install t master) (lowest t) = u at hclosed
  have hopened := file_install_lowest u slave
  obtain ⟨t0, hdup0, h0, hrest0⟩ := dup2_of_file hopened 0
  have hslave0 : file t0 (lowest u) = some slave := by
    by_cases hu : lowest u = 0
    · rw [hu, h0]
    · rw [hrest0 _ hu, hopened]
  obtain ⟨t1, hdup1, h1, hrest1⟩ := dup2_of_file hslave0 1
  have hslave1 : file t1 (lowest u) = some slave := by
    by_cases hu : lowest u = 1
    · rw [hu, h1]
    · rw [hrest1 _ hu, hslave0]
  obtain ⟨t2, hdup2, h2, hrest2⟩ := dup2_of_file hslave1 2
  have hstd : ∀ fd ≤ 2, file t2 fd = some slave := by
    intro fd hfd
    match fd with
    | 0 => rw [hrest2 0 (by decide), hrest1 0 (by decide), h0]
    | 1 => rw [hrest2 1 (by decide), h1]
    | 2 => exact h2
  have hother : ∀ fd > 2, fd ≠ lowest u → file t2 fd = file t fd := by
    intro fd hfd hne
    rw [hrest2 fd (by omega), hrest1 fd (by omega), hrest0 fd (by omega), file_install_of_ne hne,
      hclosed]
  refine ⟨if lowest u > 2 then Fds.close t2 (lowest u) else t2, ?_, fun fd => ?_⟩
  · simp only [hdup0, hdup1, hdup2, Option.bind_some, Option.map_some]
  by_cases hu : lowest u > 2
  · rw [if_pos hu]
    by_cases hfd : fd = lowest u
    · have hfree : file t (lowest u) = none := by rw [← hclosed, file_lowest]
      rw [hfd, file_close_self, if_neg (by omega), hfree]
    · rw [file_close_of_ne _ hfd]
      by_cases hle : fd ≤ 2
      · rw [if_pos hle, hstd fd hle]
      · rw [if_neg hle, hother fd (by omega) hfd]
  · rw [if_neg hu]
    by_cases hle : fd ≤ 2
    · rw [if_pos hle, hstd fd hle]
    · rw [if_neg hle, hother fd (by omega) (by omega)]

theorem child_isSome (k : Kernel α) (t : Fds α) (master : α) :
    (child k (lowest t) (install t master)).isSome = true ↔
      (∃ slave, k.slave = .ok slave) ∧ k.settings = .ok () := by
  rcases hslave : k.slave with e | slave
  · simp [child, hslave]
  rcases hsettings : k.settings with e | ⟨⟩
  · simp [child, hslave, hsettings]
  · obtain ⟨t', hchild, -⟩ := child_eq hslave hsettings t master
    simp [hchild]

/-- The part of `ptyFork()` after the master is open. -/
theorem ptyFork_of_master {name : List Char} (h : masterPlan k MAX_SNAME = .ok (master, name))
    (snLen : Option ℕ) (c : Caller α) :
    ptyFork k snLen c =
      if ∀ n ∈ snLen, name.length < n then
        forkSlave k (lowest c.fds) (snLen.map fun _ => name) { c with fds := install c.fds master }
      else .error { Caller.close k { c with fds := install c.fds master } (lowest c.fds) with
        errno := EOVERFLOW } := by
  rw [ptyFork, ptyMasterOpen_of_ok h c]
  cases snLen with
  | none => simp
  | some n =>
    by_cases hn : name.length < n
    · simp [hn, strncpy_of_le hn.le]
    · simp [hn]

theorem plan_of_master {name : List Char} (h : masterPlan k MAX_SNAME = .ok (master, name))
    (snLen : Option ℕ) :
    plan k snLen = if ∀ n ∈ snLen, name.length < n then k.fork.map (master, name, ·)
      else .error EOVERFLOW := by
  rw [plan, h]
  rfl

end Proofs

/-- However the calls turn out, and whichever descriptors the caller has. If `ptyFork()` fails, the
caller keeps exactly its descriptors and finds the error of the first call that failed in `errno`.
If it succeeds, the caller has the master as one more descriptor, and the name of the slave in its
buffer. The child goes on exactly if it can open and set up the slave; it then has the slave as its
three standard descriptors, and apart from that the descriptors of the caller without the master.
-/
theorem pty_fork_exact {α : Type} (k : Kernel α) (snLen : Option ℕ) (c : Caller α) :
    match plan k snLen with
    | .error e => ∃ c', ptyFork k snLen c = .error c' ∧ c'.errno = e ∧
        ∀ fd, file c'.fds fd = file c.fds fd
    | .ok (master, name, childPid) => ∃ c' t,
        ptyFork k snLen c =
          .forked c' childPid (lowest c.fds) (snLen.map fun _ => name) t ∧
        (∀ fd, file c'.fds fd = if fd = lowest c.fds then some master else file c.fds fd) ∧
        (t.isSome = true ↔ (∃ slave, k.slave = .ok slave) ∧ k.settings = .ok ()) ∧
        ∀ slave u, k.slave = .ok slave → t = some u →
          ∀ fd, file u fd = if fd ≤ 2 then some slave else file c.fds fd := by
  rcases hmaster : masterPlan k MAX_SNAME with e | ⟨master, name⟩
  · have hplan : plan k snLen = .error e := by
      rw [plan, hmaster]
      rfl
    obtain ⟨c', hopen, hfailed⟩ := ptyMasterOpen_of_error hmaster c
    rw [hplan]
    exact ⟨c', by rw [ptyFork, hopen], hfailed⟩
  have hplan := plan_of_master hmaster snLen
  have hfork := ptyFork_of_master hmaster snLen c
  by_cases hlen : ∀ n ∈ snLen, name.length < n
  · rw [if_pos hlen, forkSlave] at hfork
    rw [if_pos hlen] at hplan
    rw [hplan]
    rcases hpid : k.fork with e | childPid
    · rw [hpid] at hfork
      exact ⟨_, hfork, failed_closeAfter k c master e⟩
    · rw [hpid] at hfork
      refine ⟨_, _, hfork, fun fd => ?_, child_isSome k c.fds master, fun slave u hslave hu => ?_⟩
      · by_cases hfd : fd = lowest c.fds
        · rw [if_pos hfd, hfd]
          exact file_install_lowest c.fds master
        · rw [if_neg hfd]
          exact file_install_of_ne hfd master
      · have hsome : (child k (lowest c.fds) (install c.fds master)).isSome = true := by
          rw [hu]
          rfl
        obtain ⟨-, hsettings⟩ := (child_isSome k c.fds master).mp hsome
        obtain ⟨u', hchild, hfile⟩ := child_eq hslave hsettings c.fds master
        obtain rfl := Option.some.inj (hchild.symm.trans hu)
        exact hfile
  · rw [hplan, if_neg hlen]
    exact ⟨_, hfork.trans (if_neg hlen), failed_eoverflow k c master⟩

end Tlpi.Pty.PtyFork
