import Tlpi.Lib.Machine
import Mathlib.Data.Finset.Basic
import Mathlib.Tactic

/-! `tty/test_tty_functions.c` with `tty/tty_functions.c`: a program that changes the settings of
the terminal and, whenever it is stopped or ends, gives the terminal back with the settings of the
user.

Signals may arrive between any two calls, also in a handler. The handler for the termination signals
does not return, so that there is no need to keep what it interrupted; the handler of `SIGTSTP`
returns to what it interrupted. -/

namespace Tlpi.Tty.TestTtyFunctions
open Lib

/-! ## The settings -/

/-- The flags of the words `c_iflag`, `c_oflag` and `c_lflag`. -/
inductive Flag
  | brkint | icrnl | ignbrk | igncr | inlcr | inpck | istrip | ixon | parmrk
  | opost
  | icanon | echo | isig | iexten
  | other (bit : ℕ)
  deriving DecidableEq

structure Termios where
  flags : Finset Flag
  vmin : ℕ
  vtime : ℕ
  deriving DecidableEq

/-- The settings that `ttySetCbreak()` makes out of `t`. -/
def cbreak (t : Termios) : Termios where
  flags := insert .isig (t.flags \ {.icanon, .echo, .icrnl})
  vmin := 1
  vtime := 0

/-- And those of `ttySetRaw()`. -/
def raw (t : Termios) : Termios where
  flags := t.flags \ {.icanon, .isig, .iexten, .echo, .brkint, .icrnl, .ignbrk, .igncr, .inlcr,
    .inpck, .istrip, .ixon, .parmrk, .opost}
  vmin := 1
  vtime := 0

/-! ## The echo -/

def isalpha (ch : UInt8) : Bool := (65 ≤ ch && ch ≤ 90) || (97 ≤ ch && ch ≤ 122)

def iscntrl (ch : UInt8) : Bool := ch < 32 || ch = 127

def tolower (ch : UInt8) : UInt8 := if 65 ≤ ch && ch ≤ 90 then ch + 32 else ch

def echo (ch : UInt8) : List UInt8 :=
  if isalpha ch then [tolower ch]
  else if ch = 10 ∨ ch = 13 then [ch]
  else if iscntrl ch then [94, ch ^^^ 64]
  else [42]

/-- A printable character or the end of a line. -/
def Plain (ch : UInt8) : Prop := ch = 10 ∨ ch = 13 ∨ (32 ≤ ch ∧ ch < 127)

instance (ch : UInt8) : Decidable (Plain ch) := by unfold Plain; infer_instance

theorem plain_of_mem_echo (ch b : UInt8) (h : b ∈ echo ch) : Plain b := by
  have hall : ∀ n : Fin 256, (echo (UInt8.ofNat n)).all (fun b => Plain b) = true := by
    decide +kernel
  have hplain := List.all_eq_true.mp (hall ⟨ch.toNat, ch.toNat_lt⟩) b
  simpa using hplain (by simpa using h)

/-! ## The program -/

inductive Sig
  | int | quit | tstp | term
  deriving DecidableEq

inductive Disposition
  | dfl
  | ign
  /-- By `tstpHandler()` for `SIGTSTP`, by `handler()` for the others. -/
  | caught
  deriving DecidableEq

inductive MainPc
  | setTty
  | sigquit | sigint | sigtstp | sigterm
  | reading
  | restore
  | exit
  deriving DecidableEq

inductive HandlerPc
  | setUser
  | exit
  deriving DecidableEq

/-- In `tstpHandler()`, from its second call on. -/
inductive TstpPc
  | setUser | signalDfl
  /-- Before `raise()`: the signal is blocked until `sigprocmask()` unblocks it. -/
  | unblock
  | reblock | sigaction | getUser | setOur
  deriving DecidableEq

inductive Control
  | main (pc : MainPc)
  | handler (pc : HandlerPc)
  /-- At the first call of `tstpHandler()`, which is to return to `back`. -/
  | getOur (back : Control)
  | tstp (pc : TstpPc) (ourTermios : Termios) (back : Control)
  deriving DecidableEq

inductive Status
  | running | stopped | exited | killed
  deriving DecidableEq

structure State where
  control : Control
  status : Status
  mask : Finset Sig
  disposition : Sig → Disposition
  /-- The settings of the terminal. -/
  tty : Termios
  userTermios : Termios
  /-- The settings that the user chose last. -/
  user : Termios
  output : List UInt8

inductive Act
  | deliver (sig : Sig)
  /-- The next call of the program. -/
  | run
  | read (ch : UInt8)
  /-- The end of the input or an error. -/
  | eof
  /-- While the program is stopped, the user changes the settings. -/
  | stty (t : Termios)
  | sigcont

/-- Establish the handler unless the signal is ignored. -/
def catchUnlessIgnored (s : State) (sig : Sig) : Sig → Disposition :=
  if s.disposition sig = .ign then s.disposition else Function.update s.disposition sig .caught

/-- Main program, with an argument (`useCbreak`) or without one. -/
def mainStep (useCbreak : Bool) (s : State) : MainPc → Option State
  | .setTty => some { s with
      control := .main (if useCbreak then .sigquit else .sigterm)
      userTermios := s.tty
      tty := if useCbreak then cbreak s.tty else raw s.tty }
  | .sigquit => some { s with
      control := .main .sigint, disposition := catchUnlessIgnored s .quit }
  | .sigint => some { s with
      control := .main .sigtstp, disposition := catchUnlessIgnored s .int }
  | .sigtstp => some { s with
      control := .main .sigterm, disposition := catchUnlessIgnored s .tstp }
  | .sigterm => some { s with
      control := .main .reading
      disposition := Function.update s.disposition .term .caught }
  | .reading => none
  | .restore => some { s with control := .main .exit, tty := s.userTermios }
  | .exit => some { s with status := .exited }

def handlerStep (s : State) : HandlerPc → State
  | .setUser => { s with control := .handler .exit, tty := s.userTermios }
  | .exit => { s with status := .exited }

def tstpStep (s : State) (ourTermios : Termios) (back : Control) : TstpPc → State
  | .setUser => { s with control := .tstp .signalDfl ourTermios back, tty := s.userTermios }
  | .signalDfl => { s with
      control := .tstp .unblock ourTermios back
      disposition := Function.update s.disposition .tstp .dfl }
  | .unblock => { s with
      control := .tstp .reblock ourTermios back, mask := s.mask.erase .tstp, status := .stopped }
  | .reblock => { s with control := .tstp .sigaction ourTermios back, mask := insert .tstp s.mask }
  | .sigaction => { s with
      control := .tstp .getUser ourTermios back
      disposition := Function.update s.disposition .tstp .caught }
  | .getUser => { s with control := .tstp .setOur ourTermios back, userTermios := s.tty }
  | .setOur => { s with control := back, tty := ourTermios, mask := s.mask.erase .tstp }

/-- The entry to the handler of a signal. -/
def enter (s : State) : Sig → State
  | .tstp => { s with control := .getOur s.control, mask := insert .tstp s.mask }
  | sig => { s with control := .handler .setUser, mask := insert sig s.mask }

def deliver (s : State) (sig : Sig) : Option State :=
  if sig ∈ s.mask then none
  else match s.disposition sig with
    | .ign => none
    | .dfl => some { s with status := if sig = .tstp then .stopped else .killed }
    | .caught => some (enter s sig)

def runStep (useCbreak : Bool) (s : State) : Option State :=
  match s.control with
  | .main pc => mainStep useCbreak s pc
  | .handler pc => some (handlerStep s pc)
  | .getOur back => some { s with control := .tstp .setUser s.tty back }
  | .tstp pc ourTermios back => some (tstpStep s ourTermios back pc)

def step (useCbreak : Bool) (s : State) : Act → Option State
  | .deliver sig => if s.status = .running then deliver s sig else none
  | .run => if s.status = .running then runStep useCbreak s else none
  | .read ch =>
    if s.status = .running ∧ s.control = .main .reading then
      some { s with
        output := s.output ++ echo ch
        control := .main (if ch = 113 then .restore else .reading) }
    else none
  | .eof =>
    if s.status = .running ∧ s.control = .main .reading then
      some { s with control := .main .restore }
    else none
  | .stty t => if s.status = .stopped then some { s with tty := t, user := t } else none
  | .sigcont => if s.status = .stopped then some { s with status := .running } else none

/-- The terminal has the settings `user`, and `userTermios` is all zero. -/
def start (ignored : Finset Sig) (user : Termios) : State where
  control := .main .setTty
  status := .running
  mask := ∅
  disposition sig := if sig ∈ ignored then .ign else .dfl
  tty := user
  userTermios := ⟨∅, 0, 0⟩
  user := user
  output := []

def machine (useCbreak : Bool) (ignored : Finset Sig) (user : Termios) : Machine State Act where
  init s := s = start ignored user
  step := step useCbreak

/-! ## Runs without a race -/

/-- The settings for the program itself. -/
def ours (useCbreak : Bool) (t : Termios) : Termios := if useCbreak then cbreak t else raw t

/-- From the end of a stop until the program has asked for the settings, it does not know those of
the user. -/
def Control.Unaware : Control → Prop
  | .tstp .reblock _ _ | .tstp .sigaction _ _ | .tstp .getUser _ _ => True
  | _ => False

/-- The program has given the terminal back for the last time. -/
def Control.Ending : Control → Prop
  | .main .exit | .handler .exit => True
  | _ => False

/-- Signals that the program is prepared for. Those that it does not ignore have their handlers; a
termination signal does not arrive while the settings of the user are unknown; and the program is
not stopped when it is about to exit. Where `tstpHandler()` has unblocked its signal, it may be
stopped again. -/
def Prepared (s : State) : Act → Prop
  | .deliver .tstp =>
    (s.disposition .tstp ≠ .dfl ∧ ¬ s.control.Ending) ∨
      ∃ our back, s.control = .tstp .reblock our back
  | .deliver sig => s.disposition sig ≠ .dfl ∧ ¬ s.control.Unaware
  | _ => True

/-- What `tstpHandler()` may return to with the settings `our`. -/
def Returns (useCbreak : Bool) (u our : Termios) : Control → Prop
  | .main .setTty | .main .exit => False
  | .main _ => our = ours useCbreak u
  | .handler .setUser => True
  | _ => False

/-- What holds of the settings at each place of the program, where `u` are those that the program
was started with. -/
def Settings (useCbreak : Bool) (u : Termios) (s : State) : Control → Prop
  | .main .setTty => s.tty = u ∧ s.user = u ∧ ∀ sig, s.disposition sig ≠ .caught
  | .main .exit | .handler .exit => s.tty = s.user ∧ s.userTermios = s.user
  | .main _ => s.tty = ours useCbreak u ∧ s.userTermios = s.user
  | .handler .setUser => s.userTermios = s.user
  | .getOur back => Returns useCbreak u s.tty back ∧ s.userTermios = s.user
  | .tstp .setUser our back => Returns useCbreak u our back ∧ s.userTermios = s.user
  | .tstp .reblock our back | .tstp .sigaction our back | .tstp .getUser our back =>
    Returns useCbreak u our back ∧ s.tty = s.user
  | .tstp _ our back =>
    Returns useCbreak u our back ∧ s.tty = s.user ∧ s.userTermios = s.user

/-- The signal of `tstpHandler()` is blocked while it runs, or has its default action. -/
def Blocking (s : State) : Control → Prop
  | .getOur _ => .tstp ∈ s.mask
  | .tstp .reblock _ _ => s.disposition .tstp = .dfl
  | .tstp .unblock _ _ => .tstp ∈ s.mask ∧ s.disposition .tstp = .dfl
  | .tstp _ _ _ => .tstp ∈ s.mask
  | _ => True

structure Inv (useCbreak : Bool) (u : Termios) (s : State) : Prop where
  settings : Settings useCbreak u s s.control
  blocking : Blocking s s.control
  stopped : s.status = .stopped → ∃ our back, s.control = .tstp .reblock our back
  exited : s.status = .exited → s.control.Ending
  not_killed : s.status ≠ .killed
  output : ∀ ch ∈ s.output, Plain ch

variable {useCbreak : Bool} {ignored : Finset Sig} {u : Termios} {s s' : State}

/-- Where the program goes on. -/
theorem inv_of_running (hrun : s.status = .running) (hset : Settings useCbreak u s s.control)
    (hblock : Blocking s s.control) (hout : ∀ ch ∈ s.output, Plain ch) : Inv useCbreak u s where
  settings := hset
  blocking := hblock
  stopped h := by simp [hrun] at h
  exited h := by simp [hrun] at h
  not_killed := by simp [hrun]
  output := hout

theorem inv_start : Inv useCbreak u (start ignored u) := by
  refine inv_of_running rfl ⟨rfl, rfl, fun sig => ?_⟩ trivial (by simp [start])
  rw [start]
  dsimp only
  split <;> simp

/-- Where a caught signal can arrive, `userTermios` has the settings of the user. -/
theorem Inv.userTermios (h : Inv useCbreak u s) {sig : Sig} (hsig : s.disposition sig = .caught)
    (haware : ¬ s.control.Unaware) : s.userTermios = s.user := by
  have hset := h.settings
  match hctl : s.control with
  | .main .setTty =>
    rw [hctl] at hset
    exact absurd hsig (hset.2.2 sig)
  | .main .exit | .handler .exit | .main .sigquit | .main .sigint | .main .sigtstp
  | .main .sigterm | .main .reading | .main .restore | .getOur _ | .tstp .setUser _ _ =>
    rw [hctl] at hset
    exact hset.2
  | .handler .setUser =>
    rw [hctl] at hset
    exact hset
  | .tstp .signalDfl _ _ | .tstp .unblock _ _ | .tstp .setOur _ _ =>
    rw [hctl] at hset
    exact hset.2.2
  | .tstp .reblock _ _ | .tstp .sigaction _ _ | .tstp .getUser _ _ =>
    rw [hctl] at haware
    exact absurd trivial haware

/-- Where `SIGTSTP` can arrive and be caught, its handler may return to. -/
theorem Inv.returns (h : Inv useCbreak u s) (hsig : s.disposition .tstp = .caught)
    (hmask : .tstp ∉ s.mask) (hending : ¬ s.control.Ending) :
    Returns useCbreak u s.tty s.control ∧ ¬ s.control.Unaware := by
  have hset := h.settings
  have hblock := h.blocking
  match hctl : s.control with
  | .main .setTty =>
    rw [hctl] at hset
    exact absurd hsig (hset.2.2 .tstp)
  | .main .exit | .handler .exit =>
    rw [hctl] at hending
    exact absurd trivial hending
  | .main .sigquit | .main .sigint | .main .sigtstp | .main .sigterm | .main .reading
  | .main .restore =>
    rw [hctl] at hset
    exact ⟨hset.1, id⟩
  | .handler .setUser => exact ⟨trivial, id⟩
  | .tstp .reblock _ _ =>
    rw [hctl] at hblock
    simp [show s.disposition .tstp = .dfl from hblock] at hsig
  | .tstp .unblock _ _ =>
    rw [hctl] at hblock
    exact absurd hblock.1 hmask
  | .getOur _ | .tstp .setUser _ _ | .tstp .signalDfl _ _ | .tstp .sigaction _ _
  | .tstp .getUser _ _ | .tstp .setOur _ _ =>
    rw [hctl] at hblock
    exact absurd hblock hmask

theorem inv_tstp (h : Inv useCbreak u s) (hrun : s.status = .running) (hmask : .tstp ∉ s.mask)
    (hsig : s.disposition .tstp = .caught) (hending : ¬ s.control.Ending) :
    Inv useCbreak u (enter s .tstp) := by
  obtain ⟨hreturns, haware⟩ := h.returns hsig hmask hending
  exact inv_of_running hrun ⟨hreturns, h.userTermios hsig haware⟩ (Finset.mem_insert_self _ _)
    h.output

theorem inv_handler {sig : Sig} (h : Inv useCbreak u s) (hrun : s.status = .running)
    (hsig : s.disposition sig = .caught) (haware : ¬ s.control.Unaware) (htstp : sig ≠ .tstp) :
    Inv useCbreak u (enter s sig) := by
  have henter : enter s sig =
      { s with control := .handler .setUser, mask := insert sig s.mask } := by
    cases sig <;> first | rfl | exact absurd rfl htstp
  rw [henter]
  exact inv_of_running hrun (h.userTermios hsig haware) trivial h.output

theorem inv_deliver {sig : Sig} (h : Inv useCbreak u s) (hrun : s.status = .running)
    (hg : Prepared s (.deliver sig)) (hs : deliver s sig = some s') : Inv useCbreak u s' := by
  obtain ⟨hmask, hs⟩ := Option.ite_none_left_eq_some.mp hs
  split at hs
  · cases hs
  · next hdfl =>
    cases hs
    cases sig with
    | tstp =>
      obtain ⟨hne, -⟩ | hreblock := hg
      · exact absurd hdfl hne
      · exact { h with
          stopped := fun _ => hreblock
          exited := by simp
          not_killed := by simp }
    | int | quit | term => exact absurd hdfl hg.1
  · next hcaught =>
    cases hs
    cases sig with
    | tstp =>
      obtain ⟨-, hending⟩ | ⟨our, back, hctl⟩ := hg
      · exact inv_tstp h hrun hmask hcaught hending
      · have hblock := h.blocking
        rw [hctl] at hblock
        simp [show s.disposition .tstp = .dfl from hblock] at hcaught
    | int | quit | term => exact inv_handler h hrun hcaught hg.2 (by simp)

theorem inv_main {pc : MainPc} (h : Inv useCbreak u s) (hrun : s.status = .running)
    (hctl : s.control = .main pc) (hs : mainStep useCbreak s pc = some s') :
    Inv useCbreak u s' := by
  have hset := h.settings
  rw [hctl] at hset
  cases pc with
  | setTty =>
    cases hs
    obtain ⟨htty, huser, -⟩ := hset
    have hours : (if useCbreak then cbreak s.tty else raw s.tty) = ours useCbreak u := by
      rw [htty, ours]
    have huser : s.tty = s.user := htty.trans huser.symm
    refine inv_of_running hrun ?_ trivial h.output
    cases useCbreak <;> exact ⟨hours, huser⟩
  | sigquit | sigint | sigtstp | sigterm =>
    cases hs
    exact inv_of_running hrun hset trivial h.output
  | reading => cases hs
  | restore =>
    cases hs
    exact inv_of_running hrun ⟨hset.2, hset.2⟩ trivial h.output
  | exit =>
    cases hs
    exact { h with
      stopped := by simp
      exited := fun _ => by rw [hctl]; trivial
      not_killed := by simp }

theorem inv_handlerStep {pc : HandlerPc} (h : Inv useCbreak u s) (hrun : s.status = .running)
    (hctl : s.control = .handler pc) : Inv useCbreak u (handlerStep s pc) := by
  have hset := h.settings
  rw [hctl] at hset
  cases pc with
  | setUser => exact inv_of_running hrun ⟨hset, hset⟩ trivial h.output
  | exit =>
    exact { h with
      stopped := by simp [handlerStep]
      exited := fun _ => by simp only [handlerStep, hctl]; trivial
      not_killed := by simp [handlerStep] }

theorem settings_of_returns {back : Control} (hreturns : Returns useCbreak u s.tty back)
    (huser : s.userTermios = s.user) : Settings useCbreak u s back ∧ Blocking s back := by
  match back with
  | .main .sigquit | .main .sigint | .main .sigtstp | .main .sigterm | .main .reading
  | .main .restore => exact ⟨⟨hreturns, huser⟩, trivial⟩
  | .handler .setUser => exact ⟨huser, trivial⟩
  | .main .setTty | .main .exit | .handler .exit | .getOur _ | .tstp _ _ _ => exact hreturns.elim

theorem inv_tstpStep {pc : TstpPc} {our : Termios} {back : Control} (h : Inv useCbreak u s)
    (hrun : s.status = .running) (hctl : s.control = .tstp pc our back) :
    Inv useCbreak u (tstpStep s our back pc) := by
  have hset := h.settings
  have hblock := h.blocking
  rw [hctl] at hset hblock
  cases pc with
  | setUser => exact inv_of_running hrun ⟨hset.1, hset.2, hset.2⟩ hblock h.output
  | signalDfl =>
    exact inv_of_running hrun hset ⟨hblock, by simp [tstpStep]⟩ h.output
  | unblock =>
    exact {
      settings := ⟨hset.1, hset.2.1⟩
      blocking := hblock.2
      stopped := fun _ => ⟨our, back, rfl⟩
      exited := by simp [tstpStep]
      not_killed := by simp [tstpStep]
      output := h.output }
  | reblock => exact inv_of_running hrun hset (Finset.mem_insert_self _ _) h.output
  | sigaction => exact inv_of_running hrun hset hblock h.output
  | getUser => exact inv_of_running hrun ⟨hset.1, hset.2, hset.2⟩ hblock h.output
  | setOur =>
    obtain ⟨hreturns, -, huser⟩ := hset
    have hback := settings_of_returns (s := tstpStep s our back .setOur) hreturns huser
    exact inv_of_running hrun hback.1 hback.2 h.output

theorem inv_runStep (h : Inv useCbreak u s) (hrun : s.status = .running)
    (hs : runStep useCbreak s = some s') : Inv useCbreak u s' := by
  rw [runStep] at hs
  split at hs
  · next hctl => exact inv_main h hrun hctl hs
  · next hctl =>
    cases hs
    exact inv_handlerStep h hrun hctl
  · next hctl =>
    cases hs
    have hset := h.settings
    have hblock := h.blocking
    rw [hctl] at hset hblock
    exact inv_of_running hrun hset hblock h.output
  · next hctl =>
    cases hs
    exact inv_tstpStep h hrun hctl

theorem inv_step {a : Act} (h : Inv useCbreak u s) (hg : Prepared s a)
    (hs : step useCbreak s a = some s') : Inv useCbreak u s' := by
  cases a with
  | deliver sig =>
    obtain ⟨hrun, hs⟩ := Option.ite_none_right_eq_some.mp hs
    exact inv_deliver h hrun hg hs
  | run =>
    obtain ⟨hrun, hs⟩ := Option.ite_none_right_eq_some.mp hs
    exact inv_runStep h hrun hs
  | read ch =>
    obtain ⟨⟨hrun, hctl⟩, ⟨⟩⟩ := Option.ite_none_right_eq_some.mp hs
    have hset := h.settings
    rw [hctl] at hset
    refine inv_of_running hrun ?_ trivial fun b hb => ?_
    · split <;> exact hset
    · rcases List.mem_append.mp hb with hb | hb
      · exact h.output b hb
      · exact plain_of_mem_echo ch b hb
  | eof =>
    obtain ⟨⟨hrun, hctl⟩, ⟨⟩⟩ := Option.ite_none_right_eq_some.mp hs
    have hset := h.settings
    rw [hctl] at hset
    exact inv_of_running hrun hset trivial h.output
  | stty t =>
    obtain ⟨hstop, ⟨⟩⟩ := Option.ite_none_right_eq_some.mp hs
    obtain ⟨our, back, hctl⟩ := h.stopped hstop
    have hset := h.settings
    rw [hctl] at hset
    refine { h with settings := ?_ }
    simp only [hctl]
    exact ⟨hset.1, rfl⟩
  | sigcont =>
    obtain ⟨hstop, ⟨⟩⟩ := Option.ite_none_right_eq_some.mp hs
    exact inv_of_running rfl h.settings h.blocking h.output

theorem inv_of_reachable (hs : (machine useCbreak ignored u).ReachableUnder Prepared s) :
    Inv useCbreak u s := by
  refine hs.invariant (I := Inv useCbreak u) ?_ fun _ _ _ h hg ha => inv_step h hg ha
  rintro _ rfl
  exact inv_start

/-! ## The races -/

/-- The calls up to the main loop. -/
def setup : List Act := List.replicate 5 .run

/-- `SIGTSTP` in the main loop, up to the stop. -/
def stop : List Act := .deliver .tstp :: List.replicate 4 .run

/-- The user changes the settings while the program is stopped, and terminates it before it has
asked for the settings again. -/
def terminated (t : Termios) : List Act :=
  setup ++ stop ++ [.stty t, .sigcont, .deliver .int, .run, .run]

/-- The program is stopped between giving the terminal back and its exit. -/
def stoppedLate (t : Termios) : List Act :=
  setup ++ [.eof, .run] ++ stop ++ [.stty t, .sigcont] ++ List.replicate 5 .run

/-- The program is terminated before it has established the handler. -/
def killedEarly : List Act := [.run, .deliver .int]

theorem Inv.tty_eq_user (h : Inv useCbreak u s) (hs : s.status = .stopped ∨ s.status = .exited) :
    s.tty = s.user := by
  have hset := h.settings
  rcases hs with hs | hs
  · obtain ⟨our, back, hctl⟩ := h.stopped hs
    rw [hctl] at hset
    exact hset.2
  · have hending := h.exited hs
    match hctl : s.control with
    | .main .exit | .handler .exit =>
      rw [hctl] at hset
      exact hset.1
    | .main .setTty | .main .sigquit | .main .sigint | .main .sigtstp | .main .sigterm
    | .main .reading | .main .restore | .handler .setUser | .getOur _ | .tstp _ _ _ =>
      rw [hctl] at hending
      exact hending.elim

/-- If signals arrive only where the program is prepared for them, the terminal has the settings of
the user whenever the program is stopped or has exited, also if the user changes them meanwhile, and
those of the program whenever it reads; nothing but plain text is echoed. The restriction is needed:
in three places a signal leaves the terminal with settings that the user has replaced, or with those
of the program. -/
theorem test_tty_restores (useCbreak : Bool) (ignored : Finset Sig) (u : Termios) :
    (∀ s, (machine useCbreak ignored u).ReachableUnder Prepared s →
      (s.status = .stopped ∨ s.status = .exited → s.tty = s.user) ∧ s.status ≠ .killed ∧
      (s.control = .main .reading → s.tty = ours useCbreak u) ∧ ∀ ch ∈ s.output, Plain ch) ∧
    (∀ t, ∀ race ∈ [terminated t, stoppedLate t],
      ∃ s, (machine true ∅ u).exec (start ∅ u) race = some s ∧ s.status = .exited ∧
        s.user = t ∧ s.tty = u) ∧
    ∃ s, (machine true ∅ u).exec (start ∅ u) killedEarly = some s ∧ s.status = .killed ∧
      s.user = u ∧ s.tty = cbreak u := by
  refine ⟨fun s hs => ?_, fun t race hrace => ?_, _, rfl, rfl, rfl, rfl⟩
  · have h := inv_of_reachable hs
    refine ⟨h.tty_eq_user, h.not_killed, fun hctl => ?_, h.output⟩
    have hset := h.settings
    rw [hctl] at hset
    exact hset.1
  · rcases List.mem_pair.mp hrace with rfl | rfl <;> exact ⟨_, rfl, rfl, rfl, rfl⟩

end Tlpi.Tty.TestTtyFunctions
