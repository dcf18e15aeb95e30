import Tlpi.Lib.Machine
import Tlpi.Lib.Progress
import Mathlib.Tactic

/-! `system()` of `procexec/system.c` in a caller with arbitrary dispositions, mask and pending
signals, while signals arrive and other children of the caller terminate at any time. Where the
caller catches `SIGCHLD`, its handler collects every child that has terminated, the one of
`system()` included if it can. -/

namespace Tlpi.Procexec.System
open Lib

/-- The signals that `system()` changes the treatment of. -/
inductive Sig
  | int
  | quit
  | chld
  deriving DecidableEq

inductive Disp
  | dfl
  | ign
  | handler
  deriving DecidableEq

/-- Dispositions and mask. -/
@[ext] structure Signals where
  disp : Sig → Disp
  blocked : Sig → Bool

def Signals.setDisp (s : Signals) (g : Sig) (d : Disp) : Signals :=
  { s with disp := Function.update s.disp g d }

/-- `exec()`: what is caught goes back to its default. -/
def Signals.exec (s : Signals) : Signals :=
  { s with disp := fun g => if s.disp g = .handler then .dfl else s.disp g }

/-- The next call that the caller makes. -/
inductive Pc
  | blockChld
  | ignoreInt
  | ignoreQuit
  | fork
  | waitpid
  | saveErrno
  | restoreMask
  | restoreInt
  | restoreQuit
  | restoreErrno
  | returned
  deriving DecidableEq

inductive Child
  | none
  /-- Before the two calls of `sigaction()`, the `sigprocmask()` and the `execl()`. -/
  | resetInt (sig : Signals)
  | resetQuit (sig : Signals)
  | setMask (sig : Signals)
  | execl (sig : Signals)
  /-- The shell. -/
  | shell (sig : Signals)
  | zombie (status : ℤ)
  /-- Collected by someone. -/
  | gone

def ECHILD : ℕ := 10

/-- `origMask`, `saOrigInt` and `saOrigQuit`. -/
structure Saved where
  mask : Sig → Bool
  int : Disp
  quit : Disp

structure State where
  sig : Signals
  pending : Sig → Bool
  pc : Pc
  saved : Saved
  child : Child
  /-- The status with which the child has terminated. -/
  exitStatus : Option ℤ
  /-- Other children that have terminated and are not yet collected. -/
  others : ℕ
  status : ℤ
  errno : ℕ
  savedErrno : ℕ
  /-- The `errno` of a `fork()` that failed. -/
  forkFailed : Option ℕ
  /-- The signal that has killed the caller. -/
  killed : Option Sig
  /-- The handlers that have run between the `fork()` and the `sigprocmask()` at the end. -/
  handled : List Sig

inductive Act
  /-- The next call of the caller; `e` is what it leaves in `errno` where it may change it. -/
  | caller (e : ℕ)
  | forkFails (e : ℕ)
  /-- Some other handler has interrupted `waitpid()`. -/
  | eintr
  | child
  | execFails
  | terminate (status : ℤ)
  | otherTerminates
  | raise (g : Sig)
  | deliver (g : Sig)

/-- At the call of `system()`, with a command. -/
def start (orig : Signals) (pending : Sig → Bool) (others errno : ℕ) : State where
  sig := orig
  pending := pending
  pc := .blockChld
  saved := ⟨fun _ => false, .dfl, .dfl⟩
  child := .none
  exitStatus := none
  others := others
  status := 0
  errno := errno
  savedErrno := 0
  forkFailed := none
  killed := none
  handled := []

/-- `sigaction()` of the caller: a pending signal that is set to be ignored is discarded. -/
def sigaction (s : State) (g : Sig) (d : Disp) : State :=
  { s with
    sig := s.sig.setDisp g d
    pending := if d = .ign then Function.update s.pending g false else s.pending }

/-- `waitpid(childPid, &status, 0)`, unless it blocks. -/
def waitpid (s : State) : Option State :=
  match s.child with
  | .zombie status => some { s with child := .gone, status := status, pc := .saveErrno }
  | .gone => some { s with status := -1, errno := ECHILD, pc := .saveErrno }
  | _ => none

def caller (s : State) (e : ℕ) : Option State :=
  match s.pc with
  | .blockChld =>
    some { s with
      saved := { s.saved with mask := s.sig.blocked }
      sig := { s.sig with blocked := Function.update s.sig.blocked .chld true }
      pc := .ignoreInt }
  | .ignoreInt =>
    some { sigaction s .int .ign with
      saved := { s.saved with int := s.sig.disp .int }
      pc := .ignoreQuit }
  | .ignoreQuit =>
    some { sigaction s .quit .ign with
      saved := { s.saved with quit := s.sig.disp .quit }
      pc := .fork }
  | .fork => some { s with child := .resetInt s.sig, pc := .waitpid }
  | .waitpid => waitpid s
  | .saveErrno => some { s with savedErrno := s.errno, pc := .restoreMask }
  | .restoreMask =>
    some { s with sig := { s.sig with blocked := s.saved.mask }, errno := e, pc := .restoreInt }
  | .restoreInt => some { sigaction s .int s.saved.int with errno := e, pc := .restoreQuit }
  | .restoreQuit => some { sigaction s .quit s.saved.quit with errno := e, pc := .restoreErrno }
  | .restoreErrno => some { s with errno := s.savedErrno, pc := .returned }
  | .returned => none

/-- A signal is generated. One that is not blocked and of no effect is discarded at once. -/
def raise (s : State) (g : Sig) : State :=
  if s.sig.blocked g = false ∧ (s.sig.disp g = .ign ∨ g = .chld ∧ s.sig.disp g = .dfl) then s
  else { s with pending := Function.update s.pending g true }

/-- The end of the child: it is not kept for a parent that ignores `SIGCHLD`. -/
def terminate (s : State) (status : ℤ) : State :=
  raise { s with
    child := if s.sig.disp .chld = .ign then .gone else .zombie status
    exitStatus := some status } .chld

def Child.alive : Child → Bool
  | .none | .zombie _ | .gone => false
  | _ => true

def childStep (s : State) : Option State :=
  match s.child with
  | .resetInt sig =>
    some { s with child := .resetQuit (if s.saved.int ≠ .ign then sig.setDisp .int .dfl else sig) }
  | .resetQuit sig =>
    some { s with child := .setMask (if s.saved.quit ≠ .ign then sig.setDisp .quit .dfl else sig) }
  | .setMask sig => some { s with child := .execl { sig with blocked := s.saved.mask } }
  | .execl sig => some { s with child := .shell sig.exec }
  | _ => none

/-- The order of the calls. -/
def Pc.rank : Pc → ℕ
  | .blockChld => 0
  | .ignoreInt => 1
  | .ignoreQuit => 2
  | .fork => 3
  | .waitpid => 4
  | .saveErrno => 5
  | .restoreMask => 6
  | .restoreInt => 7
  | .restoreQuit => 8
  | .restoreErrno => 9
  | .returned => 10

/-- All three protections are on. -/
def Pc.guarded (pc : Pc) : Bool := 3 ≤ pc.rank ∧ pc.rank ≤ 6

/-- The handler for `SIGCHLD` collects whatever there is. -/
def reap (s : State) : State :=
  { s with
    others := 0
    child := match s.child with | .zombie _ => .gone | c => c }

def deliver (s : State) (g : Sig) : Option State :=
  if s.pending g = true ∧ s.sig.blocked g = false then
    let s' := { s with pending := Function.update s.pending g false }
    match s.sig.disp g with
    | .ign => some s'
    | .dfl => if g = .chld then some s' else some { s' with killed := some g }
    | .handler =>
      let s'' := if s.pc.guarded then { s' with handled := s'.handled ++ [g] } else s'
      some (if g = .chld then reap s'' else s'')
  else none

def act (s : State) : Act → Option State
  | .caller e => caller s e
  | .forkFails e =>
    if s.pc = .fork then
      some { s with status := -1, errno := e, forkFailed := some e, pc := .saveErrno }
    else none
  | .eintr => if s.pc = .waitpid then some s else none
  | .child => childStep s
  | .execFails =>
    match s.child with
    | .execl _ => some (terminate s (127 * 256))
    | _ => none
  | .terminate status => if s.child.alive then some (terminate s status) else none
  | .otherTerminates =>
    some (raise
      { s with others := if s.sig.disp .chld = .ign then s.others else s.others + 1 } .chld)
  | .raise g => some (raise s g)
  | .deliver g => deliver s g

/-- Up to the return, or the end of the caller. -/
def machine (orig : Signals) : Machine State Act where
  init s := ∃ pending others errno, s = start orig pending others errno
  step s a := if s.pc = .returned ∨ s.killed.isSome then none else act s a

/-! ## What the settings are at each call -/

/-- The signals as they are to be before each call of the caller. -/
def Pc.signals (orig : Signals) (pc : Pc) : Signals where
  disp
    | .int => if 2 ≤ pc.rank ∧ pc.rank ≤ 7 then .ign else orig.disp .int
    | .quit => if 3 ≤ pc.rank ∧ pc.rank ≤ 8 then .ign else orig.disp .quit
    | .chld => orig.disp .chld
  blocked
    | .chld => if 1 ≤ pc.rank ∧ pc.rank ≤ 6 then true else orig.blocked .chld
    | g => orig.blocked g

/-- The settings, and the variables that keep the original ones. -/
structure Settings (orig sig : Signals) (pc : Pc) (saved : Saved) : Prop where
  sig : sig = pc.signals orig
  mask : 1 ≤ pc.rank → saved.mask = orig.blocked
  int : 2 ≤ pc.rank → saved.int = orig.disp .int
  quit : 3 ≤ pc.rank → saved.quit = orig.disp .quit

/-- What is caught or left to its default has its default in the child. -/
def Disp.reset : Disp → Disp
  | .ign => .ign
  | _ => .dfl

/-- The settings of the child before each of its calls. -/
def ChildSettings (orig : Signals) : Child → Prop
  | .resetInt sig => sig = Pc.fork.signals orig
  | .resetQuit sig => sig = (Pc.fork.signals orig).setDisp .int (orig.disp .int).reset
  | .setMask sig => sig = ((Pc.fork.signals orig).setDisp .int (orig.disp .int).reset).setDisp .quit
      (orig.disp .quit).reset
  | .execl sig => sig.exec = orig.exec
  | .shell sig => sig = orig.exec
  | _ => True

variable {orig : Signals} {s s' : State}

theorem signals_start (orig : Signals) : Pc.blockChld.signals orig = orig := by
  ext g <;> cases g <;> rfl

theorem signals_returned (orig : Signals) : Pc.returned.signals orig = orig := by
  ext g <;> cases g <;> rfl

theorem settings_start (orig : Signals) (saved : Saved) : Settings orig orig .blockChld saved :=
  ⟨(signals_start orig).symm, fun h => absurd h (by decide), fun h => absurd h (by decide),
    fun h => absurd h (by decide)⟩

/-- Each of the six calls that change a setting leads to the settings of the next one. -/
theorem settings_blockChld {sig : Signals} {saved : Saved}
    (h : Settings orig sig .blockChld saved) :
    Settings orig { sig with blocked := Function.update sig.blocked .chld true } .ignoreInt
      { saved with mask := sig.blocked } := by
  have hsig := h.sig.trans (signals_start orig)
  subst hsig
  refine ⟨?_, fun _ => rfl, fun h2 => absurd h2 (by decide), fun h3 => absurd h3 (by decide)⟩
  ext g <;> cases g <;> rfl

theorem settings_ignoreInt {sig : Signals} {saved : Saved}
    (h : Settings orig sig .ignoreInt saved) :
    Settings orig (sig.setDisp .int .ign) .ignoreQuit { saved with int := sig.disp .int } := by
  have hsig := h.sig
  subst hsig
  refine ⟨?_, fun _ => h.mask (by decide), fun _ => rfl, fun h3 => absurd h3 (by decide)⟩
  ext g <;> cases g <;> rfl

theorem settings_ignoreQuit {sig : Signals} {saved : Saved}
    (h : Settings orig sig .ignoreQuit saved) :
    Settings orig (sig.setDisp .quit .ign) .fork { saved with quit := sig.disp .quit } := by
  have hsig := h.sig
  subst hsig
  refine ⟨?_, fun _ => h.mask (by decide), fun _ => h.int (by decide), fun _ => rfl⟩
  ext g <;> cases g <;> rfl

theorem settings_restoreMask {sig : Signals} {saved : Saved}
    (h : Settings orig sig .restoreMask saved) :
    Settings orig { sig with blocked := saved.mask } .restoreInt saved := by
  have hsig := h.sig
  subst hsig
  refine ⟨?_, fun _ => h.mask (by decide), fun _ => h.int (by decide), fun _ => h.quit (by decide)⟩
  rw [h.mask (by decide)]
  ext g <;> cases g <;> rfl

theorem settings_restoreInt {sig : Signals} {saved : Saved}
    (h : Settings orig sig .restoreInt saved) :
    Settings orig (sig.setDisp .int saved.int) .restoreQuit saved := by
  have hsig := h.sig
  subst hsig
  refine ⟨?_, fun _ => h.mask (by decide), fun _ => h.int (by decide), fun _ => h.quit (by decide)⟩
  rw [h.int (by decide)]
  ext g <;> cases g <;> rfl

theorem settings_restoreQuit {sig : Signals} {saved : Saved}
    (h : Settings orig sig .restoreQuit saved) :
    Settings orig (sig.setDisp .quit saved.quit) .restoreErrno saved := by
  have hsig := h.sig
  subst hsig
  refine ⟨?_, fun _ => h.mask (by decide), fun _ => h.int (by decide), fun _ => h.quit (by decide)⟩
  rw [h.quit (by decide)]
  ext g <;> cases g <;> rfl

/-- The other calls leave the settings as they are. -/
theorem Settings.next {sig : Signals} {saved : Saved} {pc pc' : Pc} (h : Settings orig sig pc saved)
    (h3 : 3 ≤ pc.rank) (hsig : pc.signals orig = pc'.signals orig) : Settings orig sig pc' saved :=
  ⟨h.sig.trans hsig, fun _ => h.mask (by omega), fun _ => h.int (by omega),
    fun _ => h.quit h3⟩

/-! ## The whole course of a call -/

/-- What `errno` is to be at the return, once `waitpid()` or a failed `fork()` has set it. -/
def State.lastErrno (s : State) : ℕ :=
  if s.pc = .saveErrno ∨ s.pc = .returned then s.errno else s.savedErrno

/-- The result: of a failed `fork()`, of a child that nobody waits for, or of the child. -/
inductive Result (orig : Signals) (s : State) : Prop
  | forkFailed (e : ℕ) (h : s.forkFailed = some e) (hstatus : s.status = -1)
      (herrno : s.lastErrno = e)
  | ignored (h : s.forkFailed = none) (hchld : orig.disp .chld = .ign) (hstatus : s.status = -1)
      (herrno : s.lastErrno = ECHILD)
  | collected (h : s.forkFailed = none) (hchld : orig.disp .chld ≠ .ign)
      (hstatus : s.exitStatus = some s.status)

/-- The child is the caller's to collect from the `fork()` on, and no handler can do it instead. -/
structure Inv (orig : Signals) (s : State) : Prop where
  settings : Settings orig s.sig s.pc s.saved
  child : ChildSettings orig s.child
  handled : s.handled = []
  killed : s.killed ≠ none → s.pc.guarded = false
  before : s.pc.rank ≤ 3 → s.child = .none
  forkFailed : s.pc.rank ≤ 4 → s.forkFailed = none
  waiting : s.pc = .waitpid → s.child ≠ .none
  zombie : ∀ status, s.child = .zombie status →
    s.exitStatus = some status ∧ orig.disp .chld ≠ .ign
  gone : s.pc = .waitpid → s.child = .gone → orig.disp .chld = .ign
  after : 5 ≤ s.pc.rank → s.child = .none ∨ s.child = .gone
  result : 5 ≤ s.pc.rank → Result orig s

theorem inv_start (orig : Signals) (pending : Sig → Bool) (others errno : ℕ) :
    Inv orig (start orig pending others errno) where
  settings := settings_start orig _
  child := trivial
  handled := rfl
  killed h := absurd rfl h
  before _ := rfl
  forkFailed _ := rfl
  waiting h := absurd h (by simp [start])
  zombie _ h := absurd h (by simp [start])
  gone h := absurd h (by simp [start])
  after h := absurd h (by simp [start, Pc.rank])
  result h := absurd h (by simp [start, Pc.rank])

theorem Result.congr (h : Result orig s) (hfork : s'.forkFailed = s.forkFailed)
    (hstatus : s'.status = s.status) (herrno : s'.lastErrno = s.lastErrno)
    (hexit : s'.exitStatus = s.exitStatus) : Result orig s' := by
  cases h with
  | forkFailed e h h1 h2 => exact .forkFailed e (hfork.trans h) (hstatus.trans h1) (herrno.trans h2)
  | ignored h hchld h1 h2 =>
    exact .ignored (hfork.trans h) hchld (hstatus.trans h1) (herrno.trans h2)
  | collected h hchld h1 => exact .collected (hfork.trans h) hchld (by rw [hexit, hstatus, h1])

/-- The calls before the `fork()`. -/
theorem inv_early (h : Inv orig s) (hk : s.killed = none) (hr : s.pc.rank ≤ 3) {sig : Signals}
    {pending : Sig → Bool} {saved : Saved} {pc : Pc} (hr' : pc.rank ≤ 3)
    (hset : Settings orig sig pc saved) :
    Inv orig { s with sig := sig, pending := pending, saved := saved, pc := pc } where
  settings := hset
  child := h.child
  handled := h.handled
  killed hne := absurd hk hne
  before _ := h.before hr
  forkFailed _ := h.forkFailed (by omega)
  waiting hw := absurd ((show pc = Pc.waitpid from hw) ▸ hr') (by decide)
  zombie := h.zombie
  gone hw := absurd ((show pc = Pc.waitpid from hw) ▸ hr') (by decide)
  after h5 := absurd h5 (by simp only; omega)
  result h5 := absurd h5 (by simp only; omega)

/-- The calls after the result is there. -/
theorem inv_late (h : Inv orig s) (hk : s.killed = none) (hr : 5 ≤ s.pc.rank) {sig : Signals}
    {pending : Sig → Bool} {pc : Pc} {errno savedErrno : ℕ} (hr' : 5 ≤ pc.rank)
    (hset : Settings orig sig pc s.saved)
    (herrno : State.lastErrno { s with
      sig := sig, pending := pending, pc := pc, errno := errno, savedErrno := savedErrno } =
      s.lastErrno) :
    Inv orig { s with
      sig := sig, pending := pending, pc := pc, errno := errno, savedErrno := savedErrno } where
  settings := hset
  child := h.child
  handled := h.handled
  killed hne := absurd hk hne
  before h3 := absurd h3 (by simp only; omega)
  forkFailed h4 := absurd h4 (by simp only; omega)
  waiting hw := absurd ((show pc = Pc.waitpid from hw) ▸ hr') (by decide)
  zombie := h.zombie
  gone hw := absurd ((show pc = Pc.waitpid from hw) ▸ hr') (by decide)
  after _ := h.after hr
  result _ := (h.result hr).congr rfl rfl herrno rfl

theorem inv_fork (h : Inv orig s) (hk : s.killed = none) (hpc : s.pc = .fork) :
    Inv orig { s with child := .resetInt s.sig, pc := .waitpid } where
  settings := (hpc ▸ h.settings : Settings orig s.sig .fork s.saved).next (by decide) rfl
  child := (hpc ▸ h.settings.sig : s.sig = Pc.fork.signals orig)
  handled := h.handled
  killed hne := absurd hk hne
  before h3 := absurd h3 (by simp [Pc.rank])
  forkFailed _ := h.forkFailed (by simp [hpc, Pc.rank])
  waiting _ := by simp
  zombie _ hz := absurd hz (by simp)
  gone _ hg := absurd hg (by simp)
  after h5 := absurd h5 (by simp [Pc.rank])
  result h5 := absurd h5 (by simp [Pc.rank])

theorem inv_forkFails (h : Inv orig s) (hk : s.killed = none) (hpc : s.pc = .fork) (e : ℕ) :
    Inv orig { s with status := -1, errno := e, forkFailed := some e, pc := .saveErrno } where
  settings := (hpc ▸ h.settings : Settings orig s.sig .fork s.saved).next (by decide) rfl
  child := h.child
  handled := h.handled
  killed hne := absurd hk hne
  before h3 := absurd h3 (by simp [Pc.rank])
  forkFailed h4 := absurd h4 (by simp [Pc.rank])
  waiting hw := absurd hw (by simp)
  zombie := h.zombie
  gone hw := absurd hw (by simp)
  after _ := Or.inl (h.before (by simp [hpc, Pc.rank]))
  result _ := .forkFailed e rfl rfl rfl

theorem inv_waitpid (h : Inv orig s) (hk : s.killed = none) (hpc : s.pc = .waitpid)
    (ha : waitpid s = some s') : Inv orig s' := by
  have hset : Settings orig s.sig .saveErrno s.saved :=
    (hpc ▸ h.settings : Settings orig s.sig .waitpid s.saved).next (by decide) rfl
  have hfork := h.forkFailed (by simp [hpc, Pc.rank])
  cases hc : s.child with
  | zombie status =>
    simp only [waitpid, hc] at ha
    obtain rfl := Option.some.inj ha
    obtain ⟨hexit, hchld⟩ := h.zombie status hc
    exact {
      settings := hset
      child := trivial
      handled := h.handled
      killed := fun hne => absurd hk hne
      before := fun h3 => absurd h3 (by simp [Pc.rank])
      forkFailed := fun h4 => absurd h4 (by simp [Pc.rank])
      waiting := fun hw => absurd hw (by simp)
      zombie := fun _ hz => absurd hz (by simp)
      gone := fun hw => absurd hw (by simp)
      after := fun _ => Or.inr rfl
      result := fun _ => .collected hfork hchld hexit }
  | gone =>
    simp only [waitpid, hc] at ha
    obtain rfl := Option.some.inj ha
    exact {
      settings := hset
      child := trivial
      handled := h.handled
      killed := fun hne => absurd hk hne
      before := fun h3 => absurd h3 (by simp [Pc.rank])
      forkFailed := fun h4 => absurd h4 (by simp [Pc.rank])
      waiting := fun hw => absurd hw (by simp)
      zombie := fun _ hz => absurd hz (by simp)
      gone := fun hw => absurd hw (by simp)
      after := fun _ => Or.inr rfl
      result := fun _ => .ignored hfork (h.gone hpc hc) rfl rfl }
  | _ => simp [waitpid, hc] at ha

theorem inv_caller (h : Inv orig s) (hk : s.killed = none) {e : ℕ} (ha : caller s e = some s') :
    Inv orig s' := by
  have hset := h.settings
  cases hpc : s.pc with
  | blockChld =>
    simp only [caller, hpc] at ha
    obtain rfl := Option.some.inj ha
    rw [hpc] at hset
    exact inv_early h hk (by simp [hpc, Pc.rank]) (by decide) (settings_blockChld hset)
  | ignoreInt =>
    simp only [caller, hpc] at ha
    obtain rfl := Option.some.inj ha
    rw [hpc] at hset
    exact inv_early h hk (by simp [hpc, Pc.rank]) (by decide) (settings_ignoreInt hset)
  | ignoreQuit =>
    simp only [caller, hpc] at ha
    obtain rfl := Option.some.inj ha
    rw [hpc] at hset
    exact inv_early h hk (by simp [hpc, Pc.rank]) (by decide) (settings_ignoreQuit hset)
  | fork =>
    simp only [caller, hpc] at ha
    obtain rfl := Option.some.inj ha
    exact inv_fork h hk hpc
  | waitpid =>
    simp only [caller, hpc] at ha
    exact inv_waitpid h hk hpc ha
  | saveErrno =>
    simp only [caller, hpc] at ha
    obtain rfl := Option.some.inj ha
    rw [hpc] at hset
    exact inv_late h hk (by simp [hpc, Pc.rank]) (by decide) (hset.next (by decide) rfl)
      (by simp [State.lastErrno, hpc])
  | restoreMask =>
    simp only [caller, hpc] at ha
    obtain rfl := Option.some.inj ha
    rw [hpc] at hset
    exact inv_late h hk (by simp [hpc, Pc.rank]) (by decide) (settings_restoreMask hset)
      (by simp [State.lastErrno, hpc])
  | restoreInt =>
    simp only [caller, hpc] at ha
    obtain rfl := Option.some.inj ha
    rw [hpc] at hset
    exact inv_late h hk (by simp [hpc, Pc.rank]) (by decide) (settings_restoreInt hset)
      (by simp [State.lastErrno, hpc, sigaction])
  | restoreQuit =>
    simp only [caller, hpc] at ha
    obtain rfl := Option.some.inj ha
    rw [hpc] at hset
    exact inv_late h hk (by simp [hpc, Pc.rank]) (by decide) (settings_restoreQuit hset)
      (by simp [State.lastErrno, hpc, sigaction])
  | restoreErrno =>
    simp only [caller, hpc] at ha
    obtain rfl := Option.some.inj ha
    rw [hpc] at hset
    exact inv_late h hk (by simp [hpc, Pc.rank]) (by decide) (hset.next (by decide) rfl)
      (by simp [State.lastErrno, hpc])
  | returned => simp [caller, hpc] at ha

theorem inv_pending (h : Inv orig s) (pending : Sig → Bool) (others : ℕ) :
    Inv orig { s with pending := pending, others := others } :=
  { h with result := fun h5 => (h.result h5).congr rfl rfl rfl rfl }

theorem inv_raise (h : Inv orig s) (g : Sig) : Inv orig (raise s g) := by
  rw [raise]
  split_ifs
  · exact h
  · exact inv_pending h _ s.others

theorem pc_of_alive (h : Inv orig s) (ha : s.child.alive = true) : s.pc = .waitpid := by
  by_contra hne
  have hcases : s.pc.rank ≤ 3 ∨ 5 ≤ s.pc.rank := by
    cases hpc : s.pc with
    | waitpid => exact absurd hpc hne
    | _ => simp [Pc.rank]
  rcases hcases with h3 | h5
  · rw [h.before h3] at ha
    exact absurd ha (by decide)
  · rcases h.after h5 with hc | hc <;> rw [hc] at ha <;> exact absurd ha (by decide)

/-- The child goes on or ends, while the caller waits. -/
theorem inv_child (h : Inv orig s) (hk : s.killed = none) (hpc : s.pc = .waitpid) {child : Child}
    {exitStatus : Option ℤ} (hchild : ChildSettings orig child) (hne : child ≠ .none)
    (hzombie : ∀ status, child = .zombie status →
      exitStatus = some status ∧ orig.disp .chld ≠ .ign)
    (hgone : child = .gone → orig.disp .chld = .ign) :
    Inv orig { s with child := child, exitStatus := exitStatus } where
  settings := h.settings
  child := hchild
  handled := h.handled
  killed hne := absurd hk hne
  before h3 := absurd h3 (by simp [hpc, Pc.rank])
  forkFailed := h.forkFailed
  waiting _ := hne
  zombie := hzombie
  gone _ := hgone
  after h5 := absurd h5 (by simp [hpc, Pc.rank])
  result h5 := absurd h5 (by simp [hpc, Pc.rank])

theorem disp_chld (h : Inv orig s) : s.sig.disp .chld = orig.disp .chld := by
  rw [h.settings.sig]
  rfl

theorem inv_terminate (h : Inv orig s) (hk : s.killed = none) (ha : s.child.alive = true)
    (status : ℤ) : Inv orig (terminate s status) := by
  refine inv_raise ?_ .chld
  rw [disp_chld h]
  split_ifs with hchld
  · exact inv_child h hk (pc_of_alive h ha) trivial (by simp) (by simp) fun _ => hchld
  · refine inv_child h hk (pc_of_alive h ha) trivial (by simp) (fun st hst => ?_) (by simp)
    exact ⟨congrArg some (Child.zombie.inj hst), hchld⟩

theorem reset_eq (d : Disp) (sig : Signals) (g : Sig) (hign : sig.disp g = .ign) :
    (if d ≠ .ign then sig.setDisp g .dfl else sig) = sig.setDisp g d.reset := by
  cases d with
  | ign =>
    ext k
    · by_cases hk : k = g
      · subst hk
        simp [Signals.setDisp, Disp.reset, hign]
      · simp [Signals.setDisp, Function.update_of_ne hk]
    · rfl
  | _ => rfl

theorem exec_disp (d : Disp) :
    (if d.reset = .handler then .dfl else d.reset) = if d = .handler then .dfl else d := by
  cases d <;> rfl

theorem exec_reset (orig : Signals) :
    Signals.exec { ((Pc.fork.signals orig).setDisp .int (orig.disp .int).reset).setDisp .quit
      (orig.disp .quit).reset with blocked := orig.blocked } = orig.exec := by
  ext g
  · cases g with
    | int => exact exec_disp (orig.disp .int)
    | quit => exact exec_disp (orig.disp .quit)
    | chld => rfl
  · rfl

theorem inv_childStep (h : Inv orig s) (hk : s.killed = none) (ha : childStep s = some s') :
    Inv orig s' := by
  have hset := h.settings
  have hchild := h.child
  cases hc : s.child with
  | resetInt sig =>
    have hpc := pc_of_alive h (by rw [hc]; rfl)
    rw [hpc] at hset
    simp only [childStep, hc] at ha
    obtain rfl := Option.some.inj ha
    rw [hc] at hchild
    refine inv_child h hk hpc ?_ (by simp) (by simp) (by simp)
    rw [hset.int (by decide), reset_eq _ _ _ (by rw [hchild]; rfl)]
    rw [show sig = _ from hchild]
    rfl
  | resetQuit sig =>
    have hpc := pc_of_alive h (by rw [hc]; rfl)
    rw [hpc] at hset
    simp only [childStep, hc] at ha
    obtain rfl := Option.some.inj ha
    rw [hc] at hchild
    refine inv_child h hk hpc ?_ (by simp) (by simp) (by simp)
    rw [hset.quit (by decide), reset_eq _ _ _ (by rw [hchild]; rfl)]
    rw [show sig = _ from hchild]
    rfl
  | setMask sig =>
    have hpc := pc_of_alive h (by rw [hc]; rfl)
    rw [hpc] at hset
    simp only [childStep, hc] at ha
    obtain rfl := Option.some.inj ha
    rw [hc] at hchild
    refine inv_child h hk hpc ?_ (by simp) (by simp) (by simp)
    rw [hset.mask (by decide), ChildSettings, show sig = _ from hchild]
    exact exec_reset orig
  | execl sig =>
    have hpc := pc_of_alive h (by rw [hc]; rfl)
    simp only [childStep, hc] at ha
    obtain rfl := Option.some.inj ha
    rw [hc] at hchild
    exact inv_child h hk hpc hchild (by simp) (by simp) (by simp)
  | _ => simp [childStep, hc] at ha

theorem child_of_unguarded (h : Inv orig s) (hg : s.pc.guarded = false) :
    s.child = .none ∨ s.child = .gone := by
  rcases Nat.lt_or_ge s.pc.rank 3 with h3 | h3
  · exact Or.inl (h.before h3.le)
  · refine h.after ?_
    by_contra h5
    exact absurd hg (by simp [Pc.guarded]; omega)

/-- What the delivery of a signal can do: nothing but to take it off while the three protections are
on; else it kills the caller or runs a handler, which finds no child of `system()` to collect. -/
theorem inv_deliver (h : Inv orig s) {g : Sig} (ha : deliver s g = some s') : Inv orig s' := by
  obtain ⟨⟨-, hunblocked⟩, ha⟩ := Option.ite_none_right_eq_some.mp ha
  have hguard : s.pc.guarded = true → s.sig.disp g = .ign := by
    intro hg
    rw [h.settings.sig] at hunblocked ⊢
    simp only [Pc.guarded, decide_eq_true_eq] at hg
    cases g with
    | int => exact if_pos (by omega)
    | quit => exact if_pos (by omega)
    | chld =>
      have htrue : (s.pc.signals orig).blocked .chld = true := if_pos (by omega)
      exact absurd (htrue.symm.trans hunblocked) (by simp)
  cases hd : s.sig.disp g with
  | ign =>
    simp only [hd] at ha
    obtain rfl := Option.some.inj ha
    exact inv_pending h _ s.others
  | dfl =>
    have hfalse : s.pc.guarded = false := by
      by_contra hg
      exact absurd (hd.symm.trans (hguard (Bool.eq_true_of_not_eq_false hg))) (by decide)
    simp only [hd] at ha
    split_ifs at ha
    · obtain rfl := Option.some.inj ha
      exact inv_pending h _ s.others
    · obtain rfl := Option.some.inj ha
      exact { h with
        killed := fun _ => hfalse
        result := fun h5 => (h.result h5).congr rfl rfl rfl rfl }
  | handler =>
    have hfalse : s.pc.guarded = false := by
      by_contra hg
      exact absurd (hd.symm.trans (hguard (Bool.eq_true_of_not_eq_false hg))) (by decide)
    have hreap : (match s.child with | .zombie _ => .gone | c => c) = s.child := by
      rcases child_of_unguarded h hfalse with hc | hc <;> rw [hc]
    simp only [hd, hfalse, Bool.false_eq_true, if_false] at ha
    split_ifs at ha
    · obtain rfl := Option.some.inj ha
      simp only [reap, hreap]
      exact inv_pending h _ 0
    · obtain rfl := Option.some.inj ha
      exact inv_pending h _ s.others

theorem inv_act (h : Inv orig s) (hk : s.killed = none) {a : Act} (ha : act s a = some s') :
    Inv orig s' := by
  cases a with
  | caller e => exact inv_caller h hk ha
  | forkFails e =>
    obtain ⟨hpc, ha⟩ := Option.ite_none_right_eq_some.mp ha
    obtain rfl := Option.some.inj ha
    exact inv_forkFails h hk hpc e
  | eintr =>
    obtain ⟨-, ha⟩ := Option.ite_none_right_eq_some.mp ha
    exact Option.some.inj ha ▸ h
  | child => exact inv_childStep h hk ha
  | execFails =>
    cases hc : s.child with
    | execl sig =>
      simp only [act, hc] at ha
      obtain rfl := Option.some.inj ha
      exact inv_terminate h hk (by rw [hc]; rfl) _
    | _ => simp [act, hc] at ha
  | terminate status =>
    obtain ⟨halive, ha⟩ := Option.ite_none_right_eq_some.mp ha
    obtain rfl := Option.some.inj ha
    exact inv_terminate h hk halive status
  | otherTerminates =>
    obtain rfl := Option.some.inj ha
    exact inv_raise (inv_pending h s.pending _) .chld
  | raise g =>
    obtain rfl := Option.some.inj ha
    exact inv_raise h g
  | deliver g => exact inv_deliver h ha

theorem step_eq_some {a : Act} (ha : (machine orig).step s a = some s') :
    s.pc ≠ .returned ∧ s.killed = none ∧ act s a = some s' := by
  obtain ⟨hlive, ha⟩ := Option.ite_none_left_eq_some.mp ha
  obtain ⟨hpc, hk⟩ := not_or.mp hlive
  exact ⟨hpc, Option.not_isSome_iff_eq_none.mp hk, ha⟩

theorem inv_step (h : Inv orig s) {a : Act} (ha : (machine orig).step s a = some s') :
    Inv orig s' := by
  obtain ⟨-, hk, ha⟩ := step_eq_some ha
  exact inv_act h hk ha

theorem inv_of_reachable (hs : (machine orig).Reachable s) : Inv orig s := by
  refine hs.invariant (I := Inv orig) ?_ fun _ _ _ h ha => inv_step h ha
  rintro _ ⟨pending, others, errno, rfl⟩
  exact inv_start orig pending others errno

/-! ## Every call ends -/

/-- What comes from outside: signals, and the ends of other children, which raise one. -/
def cost : Act → ℕ
  | .eintr => 1
  | .raise _ | .otherTerminates => 2
  | _ => 0

def Child.weight : Child → ℕ
  | .resetInt _ => 6
  | .resetQuit _ => 5
  | .setMask _ => 4
  | .execl _ => 3
  | .shell _ => 2
  | _ => 0

def Pc.weight (pc : Pc) : ℕ := if pc.rank ≤ 3 then 20 - pc.rank else 10 - pc.rank

def pendingCount (pending : Sig → Bool) : ℕ :=
  (pending .int).toNat + (pending .quit).toNat + (pending .chld).toNat

/-- The calls that are left, those of the child, and the deliveries. -/
def weight (s : State) : ℕ :=
  s.pc.weight + s.child.weight + pendingCount s.pending

theorem pendingCount_set (pending : Sig → Bool) (g : Sig) :
    pendingCount (Function.update pending g true) ≤ pendingCount pending + 1 := by
  cases g <;> simp [pendingCount, Function.update] <;> omega

theorem pendingCount_clear (pending : Sig → Bool) (g : Sig) :
    pendingCount (Function.update pending g false) ≤ pendingCount pending := by
  cases g <;> simp [pendingCount, Function.update]

theorem pendingCount_deliver {pending : Sig → Bool} {g : Sig} (h : pending g = true) :
    pendingCount (Function.update pending g false) + 1 = pendingCount pending := by
  cases g <;> simp only [pendingCount, Function.update_self, h, ne_eq, reduceCtorEq,
    not_false_eq_true, Function.update_of_ne, Bool.toNat_true, Bool.toNat_false] <;> omega

theorem weight_raise (s : State) (g : Sig) : weight (raise s g) ≤ weight s + 1 := by
  rw [raise]
  split_ifs
  · omega
  · have hle := pendingCount_set s.pending g
    simp only [weight]
    omega

theorem weight_terminate (halive : s.child.alive = true) (status : ℤ) :
    weight (terminate s status) < weight s := by
  have hraise := weight_raise { s with
    child := if s.sig.disp .chld = .ign then .gone else .zombie status
    exitStatus := some status } .chld
  have htwo : 2 ≤ s.child.weight := by
    cases hc : s.child with
    | none | zombie _ | gone => exact absurd halive (by simp [hc, Child.alive])
    | _ => simp [Child.weight]
  have hzero : (if s.sig.disp .chld = .ign then Child.gone else .zombie status).weight = 0 := by
    split_ifs <;> rfl
  simp only [weight, hzero] at hraise
  rw [terminate]
  simp only [weight]
  omega

/-- A call of the caller, which may discard what is pending. -/
theorem weight_pc (hrank : s'.pc.weight < s.pc.weight) (hchild : s'.child = s.child)
    (hpending : pendingCount s'.pending ≤ pendingCount s.pending) : weight s' < weight s := by
  simp only [weight, hchild]
  omega

theorem pendingCount_sigaction (s : State) (g : Sig) (d : Disp) :
    pendingCount (sigaction s g d).pending ≤ pendingCount s.pending := by
  simp only [sigaction]
  split_ifs
  · exact pendingCount_clear s.pending g
  · exact le_rfl

theorem weight_caller {e : ℕ} (ha : caller s e = some s') : weight s' < weight s := by
  cases hpc : s.pc with
  | ignoreInt =>
    simp only [caller, hpc] at ha
    obtain rfl := Option.some.inj ha
    exact weight_pc (by simp [hpc, Pc.weight, Pc.rank]) rfl (pendingCount_sigaction s .int .ign)
  | ignoreQuit =>
    simp only [caller, hpc] at ha
    obtain rfl := Option.some.inj ha
    exact weight_pc (by simp [hpc, Pc.weight, Pc.rank]) rfl (pendingCount_sigaction s .quit .ign)
  | restoreInt =>
    simp only [caller, hpc] at ha
    obtain rfl := Option.some.inj ha
    exact weight_pc (by simp [hpc, Pc.weight, Pc.rank]) rfl
      (pendingCount_sigaction s .int s.saved.int)
  | restoreQuit =>
    simp only [caller, hpc] at ha
    obtain rfl := Option.some.inj ha
    exact weight_pc (by simp [hpc, Pc.weight, Pc.rank]) rfl
      (pendingCount_sigaction s .quit s.saved.quit)
  | blockChld | saveErrno | restoreMask | restoreErrno =>
    simp only [caller, hpc] at ha
    obtain rfl := Option.some.inj ha
    exact weight_pc (by simp [hpc, Pc.weight, Pc.rank]) rfl le_rfl
  | fork =>
    simp only [caller, hpc] at ha
    obtain rfl := Option.some.inj ha
    have hfork : Pc.fork.weight = 17 := rfl
    have hwait : Pc.waitpid.weight = 6 := rfl
    have hchild : (Child.resetInt s.sig).weight = 6 := rfl
    simp only [weight, hpc, hfork, hwait, hchild]
    omega
  | waitpid =>
    simp only [caller, hpc, waitpid] at ha
    cases hc : s.child with
    | zombie status | gone =>
      simp only [hc] at ha
      obtain rfl := Option.some.inj ha
      simp [weight, hpc, hc, Pc.weight, Pc.rank, Child.weight]
    | _ => simp [hc] at ha
  | returned => simp [caller, hpc] at ha

theorem weight_childStep (ha : childStep s = some s') : weight s' < weight s := by
  cases hc : s.child with
  | resetInt _ | resetQuit _ | setMask _ | execl _ =>
    simp only [childStep, hc] at ha
    obtain rfl := Option.some.inj ha
    simp only [weight, hc, Child.weight]
    omega
  | _ => simp [childStep, hc] at ha

theorem weight_deliver {g : Sig} (ha : deliver s g = some s') : weight s' < weight s := by
  obtain ⟨⟨hpending, -⟩, ha⟩ := Option.ite_none_right_eq_some.mp ha
  have hcount := pendingCount_deliver hpending
  have hreap : ∀ c : Child,
      (match c with | .zombie _ => Child.gone | c => c).weight ≤ c.weight := by
    intro c
    cases c <;> exact le_rfl
  have hchild := hreap s.child
  cases hd : s.sig.disp g with
  | ign =>
    simp only [hd] at ha
    obtain rfl := Option.some.inj ha
    simp only [weight]
    omega
  | dfl =>
    simp only [hd] at ha
    split_ifs at ha
    all_goals
      obtain rfl := Option.some.inj ha
      simp only [weight]
      omega
  | handler =>
    simp only [hd] at ha
    split_ifs at ha
    all_goals
      obtain rfl := Option.some.inj ha
      simp only [weight, reap]
      omega

theorem weight_step {a : Act} (ha : (machine orig).step s a = some s') :
    weight s' < weight s + cost a := by
  obtain ⟨-, -, ha⟩ := step_eq_some ha
  cases a with
  | caller e => exact weight_caller ha
  | forkFails e =>
    obtain ⟨hpc, ha⟩ := Option.ite_none_right_eq_some.mp ha
    obtain rfl := Option.some.inj ha
    exact weight_pc (by simp [hpc, Pc.weight, Pc.rank]) rfl le_rfl
  | eintr =>
    obtain ⟨-, ha⟩ := Option.ite_none_right_eq_some.mp ha
    obtain rfl := Option.some.inj ha
    exact Nat.lt_succ_self _
  | child => exact weight_childStep ha
  | execFails =>
    cases hc : s.child with
    | execl sig =>
      simp only [act, hc] at ha
      obtain rfl := Option.some.inj ha
      exact weight_terminate (by rw [hc]; rfl) _
    | _ => simp [act, hc] at ha
  | terminate status =>
    obtain ⟨halive, ha⟩ := Option.ite_none_right_eq_some.mp ha
    obtain rfl := Option.some.inj ha
    exact weight_terminate halive status
  | otherTerminates =>
    obtain rfl := Option.some.inj ha
    exact Nat.lt_succ_of_le (weight_raise _ .chld)
  | raise g =>
    obtain rfl := Option.some.inj ha
    exact Nat.lt_succ_of_le (weight_raise s g)
  | deliver g => exact weight_deliver ha

theorem ended_of_stuck (h : Inv orig s) (hs : ∀ a, cost a = 0 → (machine orig).step s a = none) :
    s.pc = .returned ∨ s.killed ≠ none := by
  by_contra hne
  obtain ⟨hpc, hk⟩ := not_or.mp hne
  have hlive : ¬ (s.pc = .returned ∨ s.killed.isSome = true) := by
    simp [hpc, not_not.mp hk]
  have hact : ∀ a, cost a = 0 → act s a = none := fun a ha =>
    (if_neg hlive).symm.trans (hs a ha)
  cases hp : s.pc with
  | waitpid =>
    have hcall := hact (.caller 0) rfl
    simp only [act, caller, hp, waitpid] at hcall
    cases hc : s.child with
    | none => exact h.waiting hp hc
    | zombie _ | gone => simp [hc] at hcall
    | _ =>
      have hterm := hact (.terminate 0) rfl
      simp [act, hc, Child.alive] at hterm
  | returned => exact hpc hp
  | _ =>
    have hcall := hact (.caller 0) rfl
    simp [act, caller, hp] at hcall

end Tlpi.Procexec.System
