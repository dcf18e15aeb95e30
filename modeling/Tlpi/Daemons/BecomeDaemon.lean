import Tlpi.Lib.Fds
import Mathlib.Tactic

/-! `becomeDaemon()` of `daemons/become_daemon.c`, over the attributes of a process that it changes.
Each process that it leaves behind exits; the model follows the one in which the call returns. -/

namespace Tlpi.Daemons.BecomeDaemon
open Lib Fds

structure Process (α : Type*) where
  pid : ℕ
  pgid : ℕ
  sid : ℕ
  /-- There is a controlling terminal. -/
  tty : Bool
  umask : ℕ
  cwd : String
  fds : Fds α

/-- How the calls turn out that do not depend on the process alone. -/
structure Kernel (α : Type*) where
  /-- The process ID of the child. -/
  fork1 : Option ℕ
  fork2 : Option ℕ
  /-- The value of `sysconf(_SC_OPEN_MAX)`, if it is determinate. -/
  openMax : Option ℕ
  /-- Below that limit `dup2()` would fail. -/
  three_le : ∀ limit ∈ openMax, 3 ≤ limit
  /-- The file that `open("/dev/null", O_RDWR)` opens. -/
  devNull : Option α

def BD_NO_CHDIR : BitVec 32 := 0o1
def BD_NO_CLOSE_FILES : BitVec 32 := 0o2
def BD_NO_REOPEN_STD_FDS : BitVec 32 := 0o4
def BD_NO_UMASK0 : BitVec 32 := 0o10
def BD_MAX_CLOSE : ℕ := 8192

section Model
variable {α : Type*}

def Process.fork (p : Process α) (pid : ℕ) : Process α := { p with pid }

/-- A leader of a process group cannot start a session. -/
def Process.setsid (p : Process α) : Option (Process α) :=
  if p.pid = p.pgid then none else some { p with pgid := p.pid, sid := p.pid, tty := false }

/-- The leader of a session without a controlling terminal gets one by opening a terminal. -/
def Process.openTty (p : Process α) : Process α := { p with tty := p.tty || p.pid = p.sid }

/-- The loop that closes the descriptors below `maxfd`. -/
def closeAll (maxfd : ℕ) (t : Fds α) : Fds α := (List.range maxfd).foldl close t

/-- The last part, with the value that is returned. -/
def reopenStdFds (k : Kernel α) (p : Process α) : Process α × ℤ :=
  let fds := close p.fds 0
  match k.devNull with
  | none => ({ p with fds }, -1)
  | some null =>
    let fd := lowest fds
    let fds := install fds null
    if fd ≠ 0 then ({ p with fds }, -1)
    else match dup2 fds 0 1 with
      | none => ({ p with fds }, -1)
      | some fds => match dup2 fds 0 2 with
        | none => ({ p with fds }, -1)
        | some fds => ({ p with fds }, 0)

/-- What the grandchild does. -/
def detach (k : Kernel α) (flags : BitVec 32) (p : Process α) : Process α × ℤ :=
  let p := if flags &&& BD_NO_UMASK0 = 0 then { p with umask := 0 } else p
  let p := if flags &&& BD_NO_CHDIR = 0 then { p with cwd := "/" } else p
  let p := if flags &&& BD_NO_CLOSE_FILES = 0 then
      { p with fds := closeAll (k.openMax.getD BD_MAX_CLOSE) p.fds }
    else p
  if flags &&& BD_NO_REOPEN_STD_FDS = 0 then reopenStdFds k p else (p, 0)

/-- The process in which the call returns, and what it returns. -/
def becomeDaemon (k : Kernel α) (flags : BitVec 32) (p : Process α) : Process α × ℤ :=
  match k.fork1 with
  | none => (p, -1)
  | some pid1 =>
    match (p.fork pid1).setsid with
    | none => (p.fork pid1, -1)
    | some q =>
      match k.fork2 with
      | none => (q, -1)
      | some pid2 => detach k flags (q.fork pid2)

end Model

/-! ## The descriptors -/

section Descriptors
variable {α : Type*}

theorem file_closeAll (maxfd : ℕ) (t : Fds α) (fd : ℕ) :
    file (closeAll maxfd t) fd = if fd < maxfd then none else file t fd := by
  induction maxfd with
  | zero => rfl
  | succ n ih =>
    rw [closeAll, List.range_succ, List.foldl_append, List.foldl_cons, List.foldl_nil]
    change file (close (closeAll n t) n) fd = _
    by_cases h : fd = n
    · rw [h, file_close_self, if_pos n.lt_succ_self]
    · rw [file_close_of_ne _ h, ih]
      by_cases hlt : fd < n
      · rw [if_pos hlt, if_pos (by omega)]
      · rw [if_neg hlt, if_neg (by omega)]

/-- With descriptor 0 closed the next file is opened there, so that only the `open()` can fail. -/
theorem reopenStdFds_of_devNull {k : Kernel α} {null : α} (hk : k.devNull = some null)
    (p : Process α) :
    ∃ fds, reopenStdFds k p = ({ p with fds }, 0) ∧
      ∀ fd, file fds fd = if fd ≤ 2 then some null else file p.fds fd := by
  have hlowest : lowest (close p.fds 0) = 0 :=
    Nat.le_zero.mp (lowest_le_of_file (file_close_self p.fds 0))
  have hzero : file (install (close p.fds 0) null) 0 = some null := by
    have hfile := file_install_lowest (close p.fds 0) null
    rwa [hlowest] at hfile
  obtain ⟨t1, hdup1, hone, hrest1⟩ := dup2_of_file hzero 1
  obtain ⟨t2, hdup2, htwo, hrest2⟩ := dup2_of_file ((hrest1 0 (by decide)).trans hzero) 2
  refine ⟨t2, by simp only [reopenStdFds, hk, hlowest, hdup1, hdup2]; rfl, fun fd => ?_⟩
  match fd with
  | 0 => rw [hrest2 0 (by decide), hrest1 0 (by decide), hzero, if_pos (by decide)]
  | 1 => rw [hrest2 1 (by decide), hone, if_pos (by decide)]
  | 2 => rw [htwo, if_pos (by decide)]
  | fd + 3 =>
    have hne : fd + 3 ≠ lowest (close p.fds 0) := by omega
    rw [hrest2 _ (by omega), hrest1 _ (by omega), file_install_of_ne hne,
      file_close_of_ne _ (by omega), if_neg (by omega)]

theorem reopenStdFds_of_none {k : Kernel α} (hk : k.devNull = none) (p : Process α) :
    (reopenStdFds k p).2 = -1 := by
  simp only [reopenStdFds, hk]

end Descriptors

/-! ## The outcome -/

section Outcome
variable {α : Type*}

/-- The process that is left, for a caller `p` and the IDs of the child and the grandchild. -/
structure Daemon (k : Kernel α) (flags : BitVec 32) (p : Process α) (pid1 pid2 : ℕ)
    (d : Process α) : Prop where
  pid : d.pid = pid2
  pgid : d.pgid = pid1
  sid : d.sid = pid1
  tty : d.tty = false
  umask : d.umask = if flags &&& BD_NO_UMASK0 = 0 then 0 else p.umask
  cwd : d.cwd = if flags &&& BD_NO_CHDIR = 0 then "/" else p.cwd
  file : ∀ fd, file d.fds fd =
    if flags &&& BD_NO_REOPEN_STD_FDS = 0 ∧ fd ≤ 2 then k.devNull
    else if flags &&& BD_NO_CLOSE_FILES = 0 ∧ fd < k.openMax.getD BD_MAX_CLOSE then none
    else file p.fds fd

/-- The attributes before the standard descriptors are reopened. -/
def prepared (k : Kernel α) (flags : BitVec 32) (p : Process α) : Process α where
  pid := p.pid
  pgid := p.pgid
  sid := p.sid
  tty := p.tty
  umask := if flags &&& BD_NO_UMASK0 = 0 then 0 else p.umask
  cwd := if flags &&& BD_NO_CHDIR = 0 then "/" else p.cwd
  fds := if flags &&& BD_NO_CLOSE_FILES = 0 then closeAll (k.openMax.getD BD_MAX_CLOSE) p.fds
    else p.fds

theorem detach_eq (k : Kernel α) (flags : BitVec 32) (p : Process α) :
    detach k flags p = if flags &&& BD_NO_REOPEN_STD_FDS = 0 then
      reopenStdFds k (prepared k flags p) else (prepared k flags p, 0) := by
  unfold detach prepared
  split_ifs <;> rfl

theorem file_prepared (k : Kernel α) (flags : BitVec 32) (p : Process α) (fd : ℕ) :
    file (prepared k flags p).fds fd =
      if flags &&& BD_NO_CLOSE_FILES = 0 ∧ fd < k.openMax.getD BD_MAX_CLOSE then none
      else file p.fds fd := by
  rw [prepared]
  by_cases h : flags &&& BD_NO_CLOSE_FILES = 0
  · simp only [h, if_true, true_and, file_closeAll]
  · simp only [h, if_false, false_and]

variable {k : Kernel α} {flags : BitVec 32} {p : Process α} {pid1 pid2 : ℕ}

theorem detach_of_devNull (hnull : flags &&& BD_NO_REOPEN_STD_FDS = 0 → k.devNull.isSome = true)
    (p : Process α) :
    ∃ fds, detach k flags p = ({ prepared k flags p with fds }, 0) ∧
      ∀ fd, file fds fd = if flags &&& BD_NO_REOPEN_STD_FDS = 0 ∧ fd ≤ 2 then k.devNull
        else file (prepared k flags p).fds fd := by
  rw [detach_eq]
  by_cases h : flags &&& BD_NO_REOPEN_STD_FDS = 0
  · obtain ⟨null, hk⟩ := Option.isSome_iff_exists.mp (hnull h)
    obtain ⟨fds, hreopen, hfile⟩ := reopenStdFds_of_devNull hk (prepared k flags p)
    refine ⟨fds, by rw [if_pos h, hreopen], fun fd => ?_⟩
    simp only [hfile fd, h, true_and, hk]
  · refine ⟨(prepared k flags p).fds, if_neg h, fun fd => ?_⟩
    simp only [h, false_and, if_false]

theorem detach_of_none (h : flags &&& BD_NO_REOPEN_STD_FDS = 0) (hk : k.devNull = none)
    (p : Process α) : (detach k flags p).2 = -1 := by
  rw [detach_eq, if_pos h]
  exact reopenStdFds_of_none hk _

/-- A child just forked leads no group, so that its `setsid()` succeeds. -/
theorem setsid_fork (hne : pid1 ≠ p.pgid) :
    (p.fork pid1).setsid = some { p with pid := pid1, pgid := pid1, sid := pid1, tty := false } :=
  if_neg hne

theorem becomeDaemon_eq (h1 : k.fork1 = some pid1) (h2 : k.fork2 = some pid2)
    (hne : pid1 ≠ p.pgid) :
    becomeDaemon k flags p = detach k flags
      { p with pid := pid2, pgid := pid1, sid := pid1, tty := false } := by
  simp only [becomeDaemon, h1, h2, setsid_fork hne]
  rfl

theorem becomeDaemon_of_fork1 (h1 : k.fork1 = none) : becomeDaemon k flags p = (p, -1) := by
  simp only [becomeDaemon, h1]

theorem becomeDaemon_of_fork2 (h1 : k.fork1 = some pid1) (h2 : k.fork2 = none)
    (hne : pid1 ≠ p.pgid) : (becomeDaemon k flags p).2 = -1 := by
  simp only [becomeDaemon, h1, h2, setsid_fork hne]

/-- What `becomeDaemon()` leaves if all goes well. -/
theorem exists_daemon (h1 : k.fork1 = some pid1) (h2 : k.fork2 = some pid2) (hne : pid1 ≠ p.pgid)
    (hnull : flags &&& BD_NO_REOPEN_STD_FDS = 0 → k.devNull.isSome = true) :
    ∃ d, becomeDaemon k flags p = (d, 0) ∧ Daemon k flags p pid1 pid2 d := by
  obtain ⟨fds, hdetach, hfile⟩ := detach_of_devNull hnull
    { p with pid := pid2, pgid := pid1, sid := pid1, tty := false }
  refine ⟨_, (becomeDaemon_eq h1 h2 hne).trans hdetach, rfl, rfl, rfl, rfl, rfl, rfl, fun fd => ?_⟩
  rw [hfile fd, file_prepared]

theorem Daemon.openTty {d : Process α} (h : Daemon k flags p pid1 pid2 d) (hne : pid2 ≠ pid1) :
    d.openTty.tty = false := by
  simp [Process.openTty, h.tty, h.pid, h.sid, hne]

end Outcome

/-- The process IDs that `fork()` gives out are not in use, neither as those of processes nor as
those of groups. -/
structure Fresh {α : Type*} (k : Kernel α) (p : Process α) : Prop where
  fork1 : k.fork1 ≠ some p.pgid
  fork2 : ∀ pid, k.fork2 = some pid → k.fork1 ≠ some pid

/-- `becomeDaemon()` succeeds exactly if both forks do and, unless that is disabled, `/dev/null`
can be opened; otherwise it returns -1. The daemon is then in a session of its own that it does not
lead, so that it never gets a controlling terminal again. Its standard descriptors are all
`/dev/null`, and of the others exactly those from the limit on are still open. -/
theorem become_daemon_exact {α : Type*} (k : Kernel α) (flags : BitVec 32) (p : Process α)
    (hfresh : Fresh k p) :
    let r := becomeDaemon k flags p
    (r.2 = 0 ∨ r.2 = -1) ∧
      (r.2 = 0 ↔ k.fork1.isSome ∧ k.fork2.isSome ∧
        (flags &&& BD_NO_REOPEN_STD_FDS = 0 → k.devNull.isSome)) ∧
      (r.2 = 0 → r.1.openTty.tty = false ∧
        ∃ pid1 pid2, k.fork1 = some pid1 ∧ k.fork2 = some pid2 ∧
          Daemon k flags p pid1 pid2 r.1) := by
  intro r
  rcases h1 : k.fork1 with _ | pid1
  · have hr : r = (p, -1) := becomeDaemon_of_fork1 h1
    simp [hr]
  have hne : pid1 ≠ p.pgid := fun heq => hfresh.fork1 (heq ▸ h1)
  rcases h2 : k.fork2 with _ | pid2
  · have hr : r.2 = -1 := becomeDaemon_of_fork2 h1 h2 hne
    simp [hr]
  have hleader : pid2 ≠ pid1 := fun heq => hfresh.fork2 pid2 h2 (heq ▸ h1)
  by_cases hnull : flags &&& BD_NO_REOPEN_STD_FDS = 0 → k.devNull.isSome = true
  · obtain ⟨d, hr, hd⟩ := exists_daemon h1 h2 hne hnull
    have hr : r = (d, 0) := hr
    rw [hr]
    exact ⟨.inl rfl, iff_of_true rfl ⟨rfl, rfl, hnull⟩,
      fun _ => ⟨hd.openTty hleader, pid1, pid2, rfl, rfl, hd⟩⟩
  · obtain ⟨hreopen, hk⟩ := Classical.not_imp.mp hnull
    have hr : r.2 = -1 := by
      rw [show r = _ from becomeDaemon_eq h1 h2 hne]
      exact detach_of_none hreopen (Option.not_isSome_iff_eq_none.mp hk) _
    refine ⟨.inr hr, iff_of_false (by simp [hr]) fun h => hnull h.2.2, fun h => ?_⟩
    simp [hr] at h

/-- Started from a shell, with the limit on descriptors lowered to 3 after descriptor 5 was opened:
that one stays open. -/
theorem become_daemon_exact_leak :
    let k : Kernel String := ⟨some 101, some 102, some 3, by decide, some "/dev/null"⟩
    let p : Process String := ⟨100, 100, 50, true, 0o22, "/home",
      [some "tty", some "tty", some "tty", none, none, some "log"]⟩
    Fresh k p ∧ file (becomeDaemon k 0 p).1.fds 5 = some "log" := by
  intro k p
  have hfresh : Fresh k p := ⟨by decide, by decide⟩
  obtain ⟨-, hzero, hdaemon⟩ := become_daemon_exact k 0 p hfresh
  obtain ⟨-, _, _, -, -, hd⟩ := hdaemon (hzero.mpr ⟨rfl, rfl, fun _ => rfl⟩)
  exact ⟨hfresh, by rw [hd.file 5]; decide⟩

end Tlpi.Daemons.BecomeDaemon
