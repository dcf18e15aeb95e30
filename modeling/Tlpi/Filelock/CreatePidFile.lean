import Mathlib.Tactic
import Tlpi.Lib.Machine

/-! Any number of processes that call `createPidFile()` of `filelock/create_pid_file.c` with one
`pidFile`, and delete that path before they terminate. The lock is on an i-node, the exclusion is
wanted on a pathname: the opened i-node need not be the one that the path names any more. -/

namespace Tlpi.Filelock
open Lib

structure Config where
  pidFile : String
  progName : ℕ → String
  cpfCloexec : ℕ → Bool

inductive Pc
  | start
  | opened (ino : ℕ)
  | gotFlags (ino : ℕ)
  | ready (ino : ℕ)
  | locked (ino : ℕ)
  | truncated (ino : ℕ)
  | returned (ino : ℕ)
  | deleted (ino : ℕ)
  | terminated (diagnostic : Option String)
  deriving DecidableEq

/-- `path` is the i-node that `pidFile` names, `lock` the holder of the write lock of an i-node. -/
structure State where
  path : Option ℕ
  nextIno : ℕ
  content : ℕ → List Char
  lock : ℕ → Option ℕ
  proc : ℕ → Pc

inductive Act
  | openFile (pid : ℕ)
  | getfd (pid : ℕ)
  | setfd (pid : ℕ)
  | setlk (pid : ℕ)
  | ftruncate (pid : ℕ)
  | writePid (pid : ℕ)
  | delete (pid : ℕ)
  | exit (pid : ℕ)
  | fail (pid : ℕ)

def move (s : State) (pid : ℕ) (pc : Pc) : State := { s with proc := Function.update s.proc pid pc }

-- termination closes the descriptors, which releases the locks of the process
def terminate (s : State) (pid : ℕ) (diagnostic : Option String) : State :=
  { move s pid (.terminated diagnostic) with
    lock := fun ino => if s.lock ino = some pid then none else s.lock ino }

-- without `CPF_CLOEXEC` the locking comes next
def afterOpen (cfg : Config) (pid ino : ℕ) : Pc :=
  if cfg.cpfCloexec pid then .opened ino else .ready ino

/-- `open(pidFile, O_RDWR | O_CREAT, ...)` -/
def openFile (cfg : Config) (s : State) (pid : ℕ) : State :=
  match s.path with
  | some ino => move s pid (afterOpen cfg pid ino)
  | none =>
    { move s pid (afterOpen cfg pid s.nextIno) with
      path := some s.nextIno
      nextIno := s.nextIno + 1
      content := Function.update s.content s.nextIno [] }

def lockedMsg (cfg : Config) (pid : ℕ) : String :=
  "PID file '" ++ cfg.pidFile ++ "' is locked; probably '" ++ cfg.progName pid ++
    "' is already running"

/-- `lockRegion(fd, F_WRLCK, SEEK_SET, 0, 0)`, and `fatal()` when another process has the lock. -/
def setlk (cfg : Config) (s : State) (pid ino : ℕ) : State :=
  if s.lock ino = none then
    { move s pid (.locked ino) with lock := Function.update s.lock ino (some pid) }
  else terminate s pid (some (lockedMsg cfg pid))

def ftruncate (s : State) (pid ino : ℕ) : State :=
  { move s pid (.truncated ino) with content := Function.update s.content ino [] }

def writePid (s : State) (pid ino : ℕ) : State :=
  { move s pid (.returned ino) with
    content := Function.update s.content ino (s.content ino ++ (toString pid ++ "\n").toList) }

-- the text of `errExit()` or `fatal()` when the next call of `createPidFile()` fails
def failMsg (cfg : Config) : Pc → Option String
  | .start => some ("Could not open PID file " ++ cfg.pidFile)
  | .opened _ => some ("Could not get flags for PID file " ++ cfg.pidFile)
  | .gotFlags _ => some ("Could not set flags for PID file " ++ cfg.pidFile)
  | .ready _ => some ("Unable to lock PID file '" ++ cfg.pidFile ++ "'")
  | .locked _ => some ("Could not truncate PID file '" ++ cfg.pidFile ++ "'")
  | .truncated _ => some ("Writing to PID file '" ++ cfg.pidFile ++ "'")
  | _ => none

def step (cfg : Config) (s : State) : Act → Option State
  | .openFile pid => if s.proc pid = .start then some (openFile cfg s pid) else none
  | .getfd pid =>
    match s.proc pid with
    | .opened ino => some (move s pid (.gotFlags ino))
    | _ => none
  | .setfd pid =>
    match s.proc pid with
    | .gotFlags ino => some (move s pid (.ready ino))
    | _ => none
  | .setlk pid =>
    match s.proc pid with
    | .ready ino => some (setlk cfg s pid ino)
    | _ => none
  | .ftruncate pid =>
    match s.proc pid with
    | .locked ino => some (ftruncate s pid ino)
    | _ => none
  | .writePid pid =>
    match s.proc pid with
    | .truncated ino => some (writePid s pid ino)
    | _ => none
  | .delete pid =>
    match s.proc pid with
    | .returned ino => some { move s pid (.deleted ino) with path := none }
    | _ => none
  | .exit pid =>
    match s.proc pid with
    | .deleted _ => some (terminate s pid none)
    | _ => none
  | .fail pid => (failMsg cfg (s.proc pid)).map fun msg => terminate s pid (some msg)

/-- No process has started; a `pidFile` may be left over from earlier. -/
def machine (cfg : Config) : Machine State Act where
  init s := (∀ pid, s.proc pid = .start) ∧ (∀ ino, s.lock ino = none) ∧
    ∀ ino, s.path = some ino → ino < s.nextIno
  step := step cfg

/-- Returned from `createPidFile()`, and not yet deleting the path. -/
def Running (s : State) (pid : ℕ) : Prop := ∃ ino, s.proc pid = .returned ino

def AtMostOne (s : State) : Prop := ∀ p q, Running s p → Running s q → p = q

/-- A lock that is about to be granted is on the i-node that `pidFile` names. -/
def LockIsCurrent (s : State) : Act → Prop
  | .setlk pid => ∀ ino, s.proc pid = .ready ino → s.lock ino = none → s.path = some ino
  | _ => True

/-! ## Exclusion -/

def Pc.holds : Pc → Option ℕ
  | .locked ino | .truncated ino | .returned ino | .deleted ino => some ino
  | _ => none

def Pc.active : Pc → Option ℕ
  | .locked ino | .truncated ino | .returned ino => some ino
  | _ => none

theorem active_holds {pc : Pc} {ino : ℕ} (h : pc.active = some ino) : pc.holds = some ino := by
  cases pc <;> simp_all [Pc.active, Pc.holds]

structure Inv (s : State) : Prop where
  held : ∀ pid ino, (s.proc pid).holds = some ino → s.lock ino = some pid
  named : ∀ pid ino, (s.proc pid).active = some ino → s.path = some ino

/-- A process that stays on its i-node, without a new claim on the path. -/
theorem inv_move {s : State} (h : Inv s) (pid : ℕ) (pc : Pc)
    (hholds : ∀ ino, pc.holds = some ino → (s.proc pid).holds = some ino)
    (hactive : ∀ ino, pc.active = some ino → (s.proc pid).active = some ino) :
    Inv (move s pid pc) := by
  constructor
  · exact (Function.forall_update_iff s.proc
      (p := fun q pc => ∀ ino, pc.holds = some ino → s.lock ino = some q)).mpr
      ⟨fun ino hi => h.held pid ino (hholds ino hi), fun q _ => h.held q⟩
  · exact (Function.forall_update_iff s.proc
      (p := fun _ pc => ∀ ino, pc.active = some ino → s.path = some ino)).mpr
      ⟨fun ino hi => h.named pid ino (hactive ino hi), fun q _ => h.named q⟩

theorem inv_terminate {s : State} (h : Inv s) (pid : ℕ) (msg : Option String) :
    Inv (terminate s pid msg) := by
  have hm := inv_move h pid (.terminated msg) (by simp [Pc.holds]) (by simp [Pc.active])
  refine ⟨fun q ino hq => ?_, hm.named⟩
  have hl : s.lock ino = some q := hm.held q ino hq
  have hne : q ≠ pid := by
    rintro rfl
    simp [terminate, move, Pc.holds] at hq
  simp [terminate, hl, hne]

theorem inv_openFile {s : State} (h : Inv s) (cfg : Config) (pid : ℕ) :
    Inv (openFile cfg s pid) := by
  have hm (ino : ℕ) : Inv (move s pid (afterOpen cfg pid ino)) := by
    unfold afterOpen
    split_ifs <;> exact inv_move h pid _ (by simp [Pc.holds]) (by simp [Pc.active])
  unfold openFile
  split
  · exact hm _
  · next hpath =>
    refine ⟨(hm _).held, fun q ino hq => ?_⟩
    have hnamed : s.path = some ino := (hm _).named q ino hq
    simp [hpath] at hnamed

theorem inv_setlk {s : State} (h : Inv s) (cfg : Config) {pid ino : ℕ}
    (hcur : s.lock ino = none → s.path = some ino) : Inv (setlk cfg s pid ino) := by
  unfold setlk
  split_ifs with hfree
  · constructor
    · refine (Function.forall_update_iff s.proc (p := fun q pc => ∀ i, pc.holds = some i →
        Function.update s.lock ino (some pid) i = some q)).mpr ⟨fun i hi => ?_, fun q _ i hi => ?_⟩
      · obtain rfl : ino = i := Option.some.inj hi
        exact Function.update_self _ _ _
      · have hl := h.held q i hi
        have hne : i ≠ ino := by
          rintro rfl
          simp [hfree] at hl
        rw [Function.update_of_ne hne, hl]
    · refine (Function.forall_update_iff s.proc (p := fun _ pc => ∀ i, pc.active = some i →
        s.path = some i)).mpr ⟨fun i hi => ?_, fun q _ => h.named q⟩
      obtain rfl : ino = i := Option.some.inj hi
      exact hcur hfree
  · exact inv_terminate h pid _

theorem inv_delete {s : State} (h : Inv s) {pid ino : ℕ} (hp : s.proc pid = .returned ino) :
    Inv { move s pid (.deleted ino) with path := none } := by
  have hm := inv_move h pid (.deleted ino) (by simp [hp, Pc.holds]) (by simp [Pc.active])
  refine ⟨hm.held, fun q i hq => ?_⟩
  -- the path names the i-node of every active process, so no other process is active
  have hne : q ≠ pid := by
    rintro rfl
    simp [move, Pc.active] at hq
  have hq' : (s.proc q).active = some i := by simpa [move, hne] using hq
  have hi : some i = some ino := (h.named q i hq').symm.trans (h.named pid ino (by rw [hp]; rfl))
  have hlock := h.held q i (active_holds hq')
  rw [Option.some.inj hi, h.held pid ino (by rw [hp]; rfl)] at hlock
  exact absurd (Option.some.inj hlock).symm hne

theorem inv_step {cfg : Config} {s s' : State} (h : Inv s) (a : Act) (hG : LockIsCurrent s a)
    (hs : step cfg s a = some s') : Inv s' := by
  cases a with
  | openFile pid =>
    simp only [step, Option.ite_none_right_eq_some, Option.some.injEq] at hs
    exact hs.2 ▸ inv_openFile h cfg pid
  | getfd pid | setfd pid =>
    simp only [step] at hs
    split at hs
    · exact Option.some.inj hs ▸ inv_move h pid _ (by simp [Pc.holds]) (by simp [Pc.active])
    · cases hs
  | setlk pid =>
    simp only [step] at hs
    split at hs
    · next ino hp => exact Option.some.inj hs ▸ inv_setlk h cfg (hG ino hp)
    · cases hs
  | ftruncate pid =>
    simp only [step] at hs
    split at hs
    · next ino hp =>
      have hm := inv_move h pid (.truncated ino) (by simp [hp, Pc.holds]) (by simp [hp, Pc.active])
      exact Option.some.inj hs ▸ ⟨hm.held, hm.named⟩
    · cases hs
  | writePid pid =>
    simp only [step] at hs
    split at hs
    · next ino hp =>
      have hm := inv_move h pid (.returned ino) (by simp [hp, Pc.holds]) (by simp [hp, Pc.active])
      exact Option.some.inj hs ▸ ⟨hm.held, hm.named⟩
    · cases hs
  | delete pid =>
    simp only [step] at hs
    split at hs
    · next ino hp => exact Option.some.inj hs ▸ inv_delete h hp
    · cases hs
  | exit pid =>
    simp only [step] at hs
    split at hs
    · exact Option.some.inj hs ▸ inv_terminate h pid none
    · cases hs
  | fail pid =>
    obtain ⟨msg, -, rfl⟩ := Option.map_eq_some_iff.mp hs
    exact inv_terminate h pid (some msg)

theorem inv_init {cfg : Config} {s : State} (h : (machine cfg).init s) : Inv s :=
  ⟨by simp [h.1, Pc.holds], by simp [h.1, Pc.active]⟩

/-- As long as every granted lock is on the i-node that the path names, there is one instance. -/
theorem createPidFile_exclusive (cfg : Config) {s : State}
    (hs : (machine cfg).ReachableUnder LockIsCurrent s) : AtMostOne s := by
  have h := hs.invariant (I := Inv) (fun _ => inv_init) fun _ a _ hi hG => inv_step hi a hG
  rintro p q ⟨i, hp⟩ ⟨j, hq⟩
  have hi := h.named p i (by rw [hp]; rfl)
  have hj := h.named q j (by rw [hq]; rfl)
  obtain rfl : i = j := Option.some.inj (hi.symm.trans hj)
  have hlp := h.held p i (by rw [hp]; rfl)
  have hlq := h.held q i (by rw [hq]; rfl)
  exact Option.some.inj (hlp.symm.trans hlq)

def daemonCfg : Config where
  pidFile := "/var/run/d.pid"
  progName := fun _ => "d"
  cpfCloexec := fun _ => false

def noPidFile : State where
  path := none
  nextIno := 0
  content := fun _ => []
  lock := fun _ => none
  proc := fun _ => .start

theorem noPidFile_init (cfg : Config) : (machine cfg).init noPidFile :=
  ⟨fun _ => rfl, fun _ => rfl, by simp [noPidFile]⟩

theorem createPidFile_exclusive_run : ∃ s, (machine daemonCfg).ReachableUnder LockIsCurrent s ∧
    Running s 0 ∧ AtMostOne s := by
  have h1 : (machine daemonCfg).ReachableUnder LockIsCurrent (openFile daemonCfg noPidFile 0) :=
    .step (.openFile 0) (.init (noPidFile_init _)) trivial rfl
  have h2 : (machine daemonCfg).ReachableUnder LockIsCurrent
      (setlk daemonCfg (openFile daemonCfg noPidFile 0) 0 0) :=
    .step (.setlk 0) h1 (by simp [LockIsCurrent, openFile, noPidFile, move, afterOpen, daemonCfg])
      rfl
  have h3 := Machine.ReachableUnder.step (Act.ftruncate 0) h2 trivial rfl
  have h4 := Machine.ReachableUnder.step (Act.writePid 0) h3 trivial rfl
  exact ⟨_, h4, ⟨0, rfl⟩, createPidFile_exclusive daemonCfg h4⟩

/-- Process 1 opens the file of process 0, which deletes the path and terminates; process 1 then
locks the deleted i-node, and process 2 creates and locks a new one. -/
theorem createPidFile_two_instances :
    ¬ ∀ s, (machine daemonCfg).Reachable s → AtMostOne s := by
  intro h
  obtain ⟨s, hs, hp⟩ := Machine.exists_reachable_of_exec (M := machine daemonCfg) (noPidFile_init _)
    [.openFile 0, .setlk 0, .ftruncate 0, .writePid 0, .openFile 1, .delete 0, .exit 0,
      .setlk 1, .ftruncate 1, .writePid 1, .openFile 2, .setlk 2, .ftruncate 2, .writePid 2]
    (fun s => decide (s.proc 1 = .returned 0 ∧ s.proc 2 = .returned 1)) (by decide)
  obtain ⟨h1, h2⟩ := of_decide_eq_true hp
  exact absurd (h s hs 1 2 ⟨0, h1⟩ ⟨1, h2⟩) (by decide)

end Tlpi.Filelock
