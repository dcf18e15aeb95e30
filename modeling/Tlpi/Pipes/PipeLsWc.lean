import Tlpi.Lib.CopyLoop
import Tlpi.Lib.Fds
import Tlpi.Lib.Machine
import Tlpi.Lib.Progress
import Mathlib.Tactic

/-! The pipeline of `pipes/pipe_ls_wc.c`, for any table of descriptors that the program is started
with. What a child does before its `exec` is one step, as it touches only the child's own table.
`ls` writes its output to descriptor 1 and exits; `wc` reads descriptor 0 to the end of the file. -/

namespace Tlpi.Pipes.PipeLsWc
open Lib Fds

inductive File (α : Type*)
  | readEnd
  | writeEnd
  /-- A file that was open at the start. -/
  | other (a : α)
  deriving DecidableEq

section Tables
variable {α : Type*}

def initial (t : Fds α) : Fds (File α) := t.map (Option.map File.other)

def pfd0 (t : Fds α) : ℕ := lowest (initial t)

def pfd1 (t : Fds α) : ℕ := lowest (install (initial t) .readEnd)

/-- The table after `pipe()`. -/
def opened (t : Fds α) : Fds (File α) := install (install (initial t) .readEnd) .writeEnd

/-- What either child does before its `exec`: it closes the end that it does not use, and moves the
other to the standard descriptor `std`. -/
def redirect (t : Fds (File α)) (unused used std : ℕ) : Option (Fds (File α)) :=
  let t := close t unused
  if used ≠ std then (dup2 t used std).map (close · used) else some t

def lsRedirect (t : Fds α) (fds : Fds (File α)) : Option (Fds (File α)) :=
  redirect fds (pfd0 t) (pfd1 t) 1

def wcRedirect (t : Fds α) (fds : Fds (File α)) : Option (Fds (File α)) :=
  redirect fds (pfd1 t) (pfd0 t) 0

end Tables

inductive Parent
  | fork1
  | fork2
  | close5
  | close6
  | wait1
  | wait2
  | exited
  deriving DecidableEq

/-- A child, with its table of descriptors. -/
inductive Child (α : Type*)
  | unborn
  | forked (fds : Fds (File α))
  | running (fds : Fds (File α))
  | exited
  deriving DecidableEq

def Child.fds {α : Type*} : Child α → Fds (File α)
  | .forked fds | .running fds => fds
  | _ => []

structure State (α β : Type*) where
  parent : Parent
  /-- The table of the parent. -/
  fds : Fds (File α)
  ls : Child α
  wc : Child α
  /-- The output that `ls` has yet to write. -/
  left : List β
  pipe : List β
  /-- What `wc` has read. -/
  input : List β

inductive Act
  | parent
  | lsExec
  | lsWrite (k : ℕ)
  | lsExit
  | wcExec
  | wcRead (k : ℕ)
  /-- `wc` sees the end of the file. -/
  | wcEof

section Model
variable {α β : Type*} [DecidableEq α]

/-- Some process has the file open. -/
def State.holds (s : State α β) (f : File α) : Prop :=
  some f ∈ s.fds ∨ some f ∈ s.ls.fds ∨ some f ∈ s.wc.fds

instance (s : State α β) (f : File α) : Decidable (s.holds f) := by
  unfold State.holds; infer_instance

def parentStep (t : Fds α) (s : State α β) : Option (State α β) :=
  match s.parent with
  | .fork1 => some { s with parent := .fork2, ls := .forked s.fds }
  | .fork2 => some { s with parent := .close5, wc := .forked s.fds }
  | .close5 => some { s with parent := .close6, fds := close s.fds (pfd0 t) }
  | .close6 => some { s with parent := .wait1, fds := close s.fds (pfd1 t) }
  | .wait1 => if s.ls = .exited ∨ s.wc = .exited then some { s with parent := .wait2 } else none
  | .wait2 =>
    if s.ls = .exited ∧ s.wc = .exited then some { s with parent := .exited, fds := [] } else none
  | .exited => none

/-- A child that cannot redirect its descriptor exits, and so does a writer without a reader. -/
def step (cap : ℕ) (t : Fds α) (s : State α β) : Act → Option (State α β)
  | .parent => parentStep t s
  | .lsExec =>
    match s.ls with
    | .forked fds => some { s with ls := (lsRedirect t fds).elim .exited .running }
    | _ => none
  | .lsWrite k =>
    match s.ls with
    | .running fds =>
      if file fds 1 = some .writeEnd then
        if s.holds .readEnd then
          (putBlock cap k s.left s.pipe).map fun (left, pipe) => { s with left, pipe }
        else some { s with ls := .exited }
      else none
    | _ => none
  | .lsExit =>
    match s.ls with
    | .running _ => if s.left = [] then some { s with ls := .exited } else none
    | _ => none
  | .wcExec =>
    match s.wc with
    | .forked fds => some { s with wc := (wcRedirect t fds).elim .exited .running }
    | _ => none
  | .wcRead k =>
    match s.wc with
    | .running fds =>
      if file fds 0 = some .readEnd then
        (takeBlock s.pipe.length k s.pipe).map fun (block, pipe) =>
          { s with pipe, input := s.input ++ block }
      else none
    | _ => none
  | .wcEof =>
    match s.wc with
    | .running fds =>
      if file fds 0 = some .readEnd ∧ s.pipe = [] ∧ ¬ s.holds .writeEnd then
        some { s with wc := .exited }
      else none
    | _ => none

def start (t : Fds α) (output : List β) : State α β :=
  ⟨.fork1, opened t, .unborn, .unborn, output, [], []⟩

def machine (cap : ℕ) (t : Fds α) (output : List β) : Machine (State α β) Act where
  init s := s = start t output
  step := step cap t

end Model

/-! ## The tables -/

section Tables
variable {α : Type*} (t : Fds α)

theorem file_initial (fd : ℕ) : file (initial t) fd = (file t fd).map .other := by
  rw [initial, file, file, List.getElem?_map]
  cases t[fd]? <;> rfl

theorem file_initial_ne_writeEnd (fd : ℕ) : file (initial t) fd ≠ some .writeEnd := by
  rw [file_initial]
  cases file t fd <;> simp

theorem pfd_ne : pfd0 t ≠ pfd1 t := ne_lowest (file_install_lowest (initial t) .readEnd)

theorem file_initial_pfd1 : file (initial t) (pfd1 t) = none := by
  rw [← file_install_of_ne (pfd_ne t).symm .readEnd]
  exact file_lowest _

theorem file_opened_pfd0 : file (opened t) (pfd0 t) = some .readEnd :=
  file_install (file_install_lowest (initial t) .readEnd) .writeEnd

theorem file_opened_pfd1 : file (opened t) (pfd1 t) = some .writeEnd :=
  file_install_lowest (install (initial t) .readEnd) .writeEnd

theorem file_opened_of_ne {fd : ℕ} (h0 : fd ≠ pfd0 t) (h1 : fd ≠ pfd1 t) :
    file (opened t) fd = file (initial t) fd :=
  (file_install_of_ne h1 _).trans (file_install_of_ne h0 _)

/-- The two ends are at `used` and `unused`, and nothing else has changed. -/
structure Opened (t t' : Fds (File α)) (unused used : ℕ) (f : File α) : Prop where
  ne : used ≠ unused
  file_used : file t' used = some f
  free : file t used = none ∧ file t unused = none
  rest : ∀ fd, fd ≠ used → fd ≠ unused → file t' fd = file t fd

/-- A child has the one end at its standard descriptor, and apart from that what the program was
started with, wherever the ends were. -/
theorem redirect_eq {t t' : Fds (File α)} {unused used : ℕ} {f : File α}
    (h : Opened t t' unused used f) (std : ℕ) :
    ∃ t'', redirect t' unused used std = some t'' ∧ file t'' std = some f ∧
      ∀ fd ≠ std, file t'' fd = file t fd := by
  have hused : file (close t' unused) used = some f := by rw [file_close_of_ne _ h.ne, h.file_used]
  have hclosed : ∀ fd, fd ≠ used → file (close t' unused) fd = file t fd := by
    intro fd hfd
    by_cases hun : fd = unused
    · rw [hun, file_close_self, h.free.2]
    · rw [file_close_of_ne _ hun, h.rest fd hfd hun]
  rw [redirect]
  by_cases hstd : used = std
  · subst hstd
    exact ⟨_, if_neg (not_not.mpr rfl), hused, hclosed⟩
  · obtain ⟨t'', hdup, hfile, hrest⟩ := dup2_of_file hused std
    refine ⟨close t'' used, ?_, ?_, fun fd hfd => ?_⟩
    · rw [if_pos hstd, hdup]
      rfl
    · rw [file_close_of_ne _ (Ne.symm hstd), hfile]
    · by_cases huse : fd = used
      · rw [huse, file_close_self, h.free.1]
      · rw [file_close_of_ne _ huse, hrest fd hfd, hclosed fd huse]

theorem opened_readEnd : Opened (initial t) (opened t) (pfd1 t) (pfd0 t) .readEnd where
  ne := pfd_ne t
  file_used := file_opened_pfd0 t
  free := ⟨file_lowest _, file_initial_pfd1 t⟩
  rest _ h0 h1 := file_opened_of_ne t h0 h1

theorem opened_writeEnd : Opened (initial t) (opened t) (pfd0 t) (pfd1 t) .writeEnd where
  ne := (pfd_ne t).symm
  file_used := file_opened_pfd1 t
  free := ⟨file_initial_pfd1 t, file_lowest _⟩
  rest _ h1 h0 := file_opened_of_ne t h0 h1

/-- The parent is left with what it was started with. -/
theorem file_closed (fd : ℕ) :
    file (close (close (opened t) (pfd0 t)) (pfd1 t)) fd = file (initial t) fd := by
  by_cases h1 : fd = pfd1 t
  · rw [h1, file_close_self, file_initial_pfd1]
  rw [file_close_of_ne _ h1]
  by_cases h0 : fd = pfd0 t
  · rw [h0, file_close_self, pfd0, file_lowest]
  · rw [file_close_of_ne _ h0, file_opened_of_ne t h0 h1]

end Tables

/-! ## The processes -/

section Rank
variable {α : Type*}

def Parent.rank : Parent → ℕ
  | .fork1 => 12
  | .fork2 => 8
  | .close5 => 4
  | .close6 => 3
  | .wait1 => 2
  | .wait2 => 1
  | .exited => 0

def Child.rank : Child α → ℕ
  | .unborn => 0
  | .forked _ => 2
  | .running _ => 1
  | .exited => 0

@[simp] theorem Child.rank_unborn : (unborn : Child α).rank = 0 := rfl

@[simp] theorem Child.rank_forked (fds : Fds (File α)) : (forked fds).rank = 2 := rfl

end Rank

section Processes
variable {α β : Type*} {t : Fds α} {output : List β} {s s' : State α β} {cap : ℕ}

def parentFds (t : Fds α) : Parent → Fds (File α)
  | .fork1 | .fork2 | .close5 => opened t
  | .close6 => close (opened t) (pfd0 t)
  | .wait1 | .wait2 => close (close (opened t) (pfd0 t)) (pfd1 t)
  | .exited => []

/-- The table of a child that runs with the pipe's end `f` at its standard descriptor. -/
def Redirected (t : Fds α) (fds : Fds (File α)) (std : ℕ) (f : File α) : Prop :=
  file fds std = some f ∧ ∀ fd ≠ std, file fds fd = file (initial t) fd

def ChildInv (t : Fds α) (std : ℕ) (f : File α) : Child α → Prop
  | .unborn | .exited => True
  | .forked fds => fds = opened t
  | .running fds => Redirected t fds std f

structure Inv (t : Fds α) (output : List β) (s : State α β) : Prop where
  fds : s.fds = parentFds t s.parent
  ls : ChildInv t 1 .writeEnd s.ls
  wc : ChildInv t 0 .readEnd s.wc
  ls_born : s.ls = .unborn ↔ s.parent = .fork1
  wc_born : s.wc = .unborn ↔ s.parent = .fork1 ∨ s.parent = .fork2
  stream : s.input ++ s.pipe ++ s.left = output
  ls_exited : s.ls = .exited → s.left = []
  /-- `wc` goes only after `ls`. -/
  wc_exited : s.wc = .exited → s.ls = .exited ∧ s.pipe = []
  wait2 : s.parent = .wait2 → s.ls = .exited
  exited : s.parent = .exited → s.ls = .exited ∧ s.wc = .exited

theorem mem_opened_writeEnd (t : Fds α) : some .writeEnd ∈ opened t :=
  mem_iff_file.mpr ⟨pfd1 t, file_opened_pfd1 t⟩

theorem mem_opened_readEnd (t : Fds α) : some .readEnd ∈ opened t :=
  mem_iff_file.mpr ⟨pfd0 t, file_opened_pfd0 t⟩

/-- A process that can still write keeps the end of the file away. -/
theorem Inv.holds_writeEnd (h : Inv t output s) (hls : s.ls ≠ .exited) : s.holds .writeEnd := by
  have hinv := h.ls
  cases hpc : s.ls with
  | unborn =>
    refine .inl ?_
    rw [h.fds, h.ls_born.mp hpc]
    exact mem_opened_writeEnd t
  | forked fds =>
    rw [hpc] at hinv
    refine .inr (.inl ?_)
    rw [hpc, Child.fds, show fds = opened t from hinv]
    exact mem_opened_writeEnd t
  | running fds =>
    rw [hpc] at hinv
    exact .inr (.inl (mem_iff_file.mpr ⟨1, by rw [hpc]; exact hinv.1⟩))
  | exited => exact absurd hpc hls

/-- And `ls` never writes without a reader. -/
theorem Inv.holds_readEnd (h : Inv t output s) (hls : s.ls ≠ .exited) : s.holds .readEnd := by
  have hinv := h.wc
  cases hpc : s.wc with
  | unborn =>
    refine .inl ?_
    rw [h.fds]
    rcases h.wc_born.mp hpc with hp | hp <;> rw [hp] <;> exact mem_opened_readEnd t
  | forked fds =>
    rw [hpc] at hinv
    refine .inr (.inr ?_)
    rw [hpc, Child.fds, show fds = opened t from hinv]
    exact mem_opened_readEnd t
  | running fds =>
    rw [hpc] at hinv
    exact .inr (.inr (mem_iff_file.mpr ⟨0, by rw [hpc]; exact hinv.1⟩))
  | exited => exact absurd (h.wc_exited hpc).1 hls

/-- Once the parent has closed its descriptors and `ls` is gone, there is no writer any more. -/
theorem Inv.not_holds_writeEnd (h : Inv t output s) (hls : s.ls = .exited)
    (hparent : s.parent = .wait1 ∨ s.parent = .wait2) {fds : Fds (File α)}
    (hwc : s.wc = .running fds) : ¬ s.holds .writeEnd := by
  have hinv := h.wc
  rw [hwc] at hinv
  rintro (hmem | hmem | hmem)
  · rw [h.fds] at hmem
    obtain ⟨fd, hfd⟩ := mem_iff_file.mp hmem
    rcases hparent with hp | hp <;>
    · rw [hp, parentFds, file_closed] at hfd
      exact file_initial_ne_writeEnd t fd hfd
  · rw [hls] at hmem
    exact absurd hmem (List.not_mem_nil)
  · rw [hwc] at hmem
    obtain ⟨fd, hfd⟩ := mem_iff_file.mp hmem
    rw [Child.fds] at hfd
    by_cases h0 : fd = 0
    · rw [h0, hinv.1] at hfd
      cases hfd
    · rw [hinv.2 fd h0] at hfd
      exact file_initial_ne_writeEnd t fd hfd

theorem inv_start (t : Fds α) (output : List β) : Inv t output (start t output) where
  fds := rfl
  ls := trivial
  wc := trivial
  ls_born := by simp [start]
  wc_born := by simp [start]
  stream := rfl
  ls_exited h := by simp [start] at h
  wc_exited h := by simp [start] at h
  wait2 h := by simp [start] at h
  exited h := by simp [start] at h

/-- The parent goes on after both its forks. -/
theorem inv_move {p : Parent} {fds : Fds (File α)} (h : Inv t output s)
    (hold : s.parent ≠ .fork1 ∧ s.parent ≠ .fork2) (hnew : p ≠ .fork1 ∧ p ≠ .fork2)
    (hfds : fds = parentFds t p) (hwait2 : p = .wait2 → s.ls = .exited)
    (hexited : p = .exited → s.ls = .exited ∧ s.wc = .exited) :
    Inv t output { s with parent := p, fds } :=
  { h with
    fds := hfds
    ls_born := h.ls_born.trans (iff_of_false hold.1 hnew.1)
    wc_born := h.wc_born.trans (iff_of_false (not_or.mpr hold) (not_or.mpr hnew))
    wait2 := hwait2
    exited := hexited }

/-- A child that has been forked becomes something else than unborn. -/
theorem inv_ls {c : Child α} (h : Inv t output s) (hborn : s.ls ≠ .unborn) (hlive : s.ls ≠ .exited)
    (hc : c ≠ .unborn) (hinv : ChildInv t 1 .writeEnd c) (hexited : c = .exited → s.left = []) :
    Inv t output { s with ls := c } :=
  { h with
    ls := hinv
    ls_born := iff_of_false hc (mt h.ls_born.mpr hborn)
    ls_exited := hexited
    wc_exited := fun hw => absurd (h.wc_exited hw).1 hlive
    wait2 := fun hp => absurd (h.wait2 hp) hlive
    exited := fun hp => absurd (h.exited hp).1 hlive }

theorem inv_wc {c : Child α} (h : Inv t output s) (hborn : s.wc ≠ .unborn) (hlive : s.wc ≠ .exited)
    (hc : c ≠ .unborn) (hinv : ChildInv t 0 .readEnd c)
    (hexited : c = .exited → s.ls = .exited ∧ s.pipe = []) : Inv t output { s with wc := c } :=
  { h with
    wc := hinv
    wc_born := iff_of_false hc (mt h.wc_born.mpr hborn)
    wc_exited := hexited
    exited := fun hp => absurd (h.exited hp).2 hlive }

variable [DecidableEq α]

theorem inv_parent (h : Inv t output s) (ha : parentStep t s = some s') : Inv t output s' := by
  have hfds := h.fds
  have hls := h.ls_born
  have hwc := h.wc_born
  rw [parentStep] at ha
  cases hpc : s.parent with
  | fork1 =>
    rw [hpc] at ha hfds hwc
    obtain rfl := Option.some.inj ha
    exact { h with
      fds := hfds
      ls := hfds
      ls_born := by simp
      wc_born := by simpa using hwc
      ls_exited := fun h' => by cases h'
      wc_exited := fun h' => by simp [hwc.mpr (.inl rfl)] at h'
      wait2 := fun h' => by cases h'
      exited := fun h' => by cases h' }
  | fork2 =>
    rw [hpc] at ha hfds hls
    obtain rfl := Option.some.inj ha
    exact { h with
      fds := hfds
      wc := hfds
      ls_born := by simpa using hls
      wc_born := by simp
      wc_exited := fun h' => by cases h'
      wait2 := fun h' => by cases h'
      exited := fun h' => by cases h' }
  | close5 =>
    rw [hpc] at ha hfds
    obtain rfl := Option.some.inj ha
    exact inv_move h (by simp [hpc]) (by simp) (by rw [hfds]; rfl) (by simp) (by simp)
  | close6 =>
    rw [hpc] at ha hfds
    obtain rfl := Option.some.inj ha
    exact inv_move h (by simp [hpc]) (by simp) (by rw [hfds]; rfl) (by simp) (by simp)
  | wait1 =>
    rw [hpc] at ha hfds
    obtain ⟨hwait, ha⟩ := Option.ite_none_right_eq_some.mp ha
    obtain rfl := Option.some.inj ha
    have hls : s.ls = .exited := hwait.elim id fun hw => (h.wc_exited hw).1
    exact inv_move h (by simp [hpc]) (by simp) hfds (fun _ => hls) (by simp)
  | wait2 =>
    rw [hpc] at ha
    obtain ⟨hwait, ha⟩ := Option.ite_none_right_eq_some.mp ha
    obtain rfl := Option.some.inj ha
    exact inv_move h (by simp [hpc]) (by simp) rfl (by simp) fun _ => hwait
  | exited => simp [hpc] at ha

/-! ### The steps of the children -/

theorem step_lsExec (h : Inv t output s) (ha : step cap t s .lsExec = some s') :
    (∃ fds, s.ls = .forked fds) ∧ ∃ fds, Redirected t fds 1 .writeEnd ∧
      s' = { s with ls := .running fds } := by
  obtain ⟨fds', hredirect, hfds'⟩ := redirect_eq (opened_writeEnd t) 1
  have hinv := h.ls
  rw [step] at ha
  cases hpc : s.ls with
  | forked fds =>
    rw [hpc] at ha hinv
    have hredirect : lsRedirect t fds = some fds' := hinv ▸ hredirect
    simp only [hredirect] at ha
    exact ⟨⟨fds, rfl⟩, fds', hfds', (Option.some.inj ha).symm⟩
  | unborn | running | exited => simp [hpc] at ha

theorem step_wcExec (h : Inv t output s) (ha : step cap t s .wcExec = some s') :
    (∃ fds, s.wc = .forked fds) ∧ ∃ fds, Redirected t fds 0 .readEnd ∧
      s' = { s with wc := .running fds } := by
  obtain ⟨fds', hredirect, hfds'⟩ := redirect_eq (opened_readEnd t) 0
  have hinv := h.wc
  rw [step] at ha
  cases hpc : s.wc with
  | forked fds =>
    rw [hpc] at ha hinv
    have hredirect : wcRedirect t fds = some fds' := hinv ▸ hredirect
    simp only [hredirect] at ha
    exact ⟨⟨fds, rfl⟩, fds', hfds', (Option.some.inj ha).symm⟩
  | unborn | running | exited => simp [hpc] at ha

theorem step_lsWrite {k : ℕ} (h : Inv t output s) (ha : step cap t s (.lsWrite k) = some s') :
    (∃ fds, s.ls = .running fds) ∧ ∃ left pipe, putBlock cap k s.left s.pipe = some (left, pipe) ∧
      s' = { s with left, pipe } := by
  rw [step] at ha
  cases hpc : s.ls with
  | running fds =>
    simp only [hpc] at ha
    obtain ⟨-, ha⟩ := Option.ite_none_right_eq_some.mp ha
    rw [if_pos (h.holds_readEnd (by simp [hpc]))] at ha
    obtain ⟨⟨left, pipe⟩, hput, rfl⟩ := Option.map_eq_some_iff.mp ha
    exact ⟨⟨fds, rfl⟩, left, pipe, hput, rfl⟩
  | unborn | forked | exited => simp [hpc] at ha

theorem step_lsExit (ha : step cap t s .lsExit = some s') :
    (∃ fds, s.ls = .running fds) ∧ s.left = [] ∧ s' = { s with ls := .exited } := by
  rw [step] at ha
  cases hpc : s.ls with
  | running fds =>
    rw [hpc] at ha
    obtain ⟨hleft, ha⟩ := Option.ite_none_right_eq_some.mp ha
    exact ⟨⟨fds, rfl⟩, hleft, (Option.some.inj ha).symm⟩
  | unborn | forked | exited => simp [hpc] at ha

theorem step_wcRead {k : ℕ} (ha : step cap t s (.wcRead k) = some s') :
    (∃ fds, s.wc = .running fds) ∧ ∃ block pipe, block ++ pipe = s.pipe ∧ block ≠ [] ∧
      s' = { s with pipe, input := s.input ++ block } := by
  rw [step] at ha
  cases hpc : s.wc with
  | running fds =>
    simp only [hpc] at ha
    obtain ⟨-, ha⟩ := Option.ite_none_right_eq_some.mp ha
    obtain ⟨⟨block, pipe⟩, htake, rfl⟩ := Option.map_eq_some_iff.mp ha
    obtain ⟨happend, hne, -⟩ := takeBlock_eq_some htake
    exact ⟨⟨fds, rfl⟩, block, pipe, happend, hne, rfl⟩
  | unborn | forked | exited => simp [hpc] at ha

theorem step_wcEof (ha : step cap t s .wcEof = some s') :
    (∃ fds, s.wc = .running fds) ∧ s.pipe = [] ∧ ¬ s.holds .writeEnd ∧
      s' = { s with wc := .exited } := by
  rw [step] at ha
  cases hpc : s.wc with
  | running fds =>
    simp only [hpc] at ha
    obtain ⟨⟨-, hpipe, hholds⟩, ha⟩ := Option.ite_none_right_eq_some.mp ha
    exact ⟨⟨fds, rfl⟩, hpipe, hholds, (Option.some.inj ha).symm⟩
  | unborn | forked | exited => simp [hpc] at ha

theorem inv_step (h : Inv t output s) {a : Act} (ha : step cap t s a = some s') :
    Inv t output s' := by
  cases a with
  | parent => exact inv_parent h ha
  | lsExec =>
    obtain ⟨⟨_, hls⟩, fds, hfds, rfl⟩ := step_lsExec h ha
    exact inv_ls h (by simp [hls]) (by simp [hls]) (by simp) hfds (by simp)
  | wcExec =>
    obtain ⟨⟨_, hwc⟩, fds, hfds, rfl⟩ := step_wcExec h ha
    exact inv_wc h (by simp [hwc]) (by simp [hwc]) (by simp) hfds (by simp)
  | lsExit =>
    obtain ⟨⟨_, hls⟩, hleft, rfl⟩ := step_lsExit ha
    exact inv_ls h (by simp [hls]) (by simp [hls]) (by simp) trivial fun _ => hleft
  | wcEof =>
    obtain ⟨⟨_, hwc⟩, hpipe, hholds, rfl⟩ := step_wcEof ha
    exact inv_wc h (by simp [hwc]) (by simp [hwc]) (by simp) trivial fun _ =>
      ⟨not_not.mp (mt h.holds_writeEnd hholds), hpipe⟩
  | lsWrite k =>
    obtain ⟨⟨_, hls⟩, left, pipe, hput, rfl⟩ := step_lsWrite h ha
    have hstream := h.stream
    rw [List.append_assoc, ← (putBlock_eq_some hput).1, ← List.append_assoc] at hstream
    exact { h with
      stream := hstream
      ls_exited := fun hx => by simp [hls] at hx
      wc_exited := fun hw => absurd (h.wc_exited hw).1 (by simp [hls]) }
  | wcRead k =>
    obtain ⟨⟨_, hwc⟩, block, pipe, happend, -, rfl⟩ := step_wcRead ha
    have hstream := h.stream
    rw [← happend, ← List.append_assoc] at hstream
    exact { h with
      stream := hstream
      wc_exited := fun hw => by simp [hwc] at hw }

theorem inv_of_reachable (hs : (machine cap t output).Reachable s) : Inv t output s := by
  refine hs.invariant (I := Inv t output) ?_ fun _ _ _ h ha => inv_step h ha
  rintro _ rfl
  exact inv_start t output

/-! ### Every run ends -/

def weight (s : State α β) : ℕ :=
  s.parent.rank + s.ls.rank + s.wc.rank + 2 * s.left.length + s.pipe.length

theorem weight_parent (h : Inv t output s) (ha : parentStep t s = some s') :
    weight s' < weight s := by
  have hls := h.ls_born
  have hwc := h.wc_born
  rw [parentStep] at ha
  cases hpc : s.parent <;> rw [hpc] at ha hls hwc
  case fork1 =>
    obtain rfl := Option.some.inj ha
    simp [weight, hpc, Parent.rank, hls.mpr rfl]
  case fork2 =>
    obtain rfl := Option.some.inj ha
    simp only [weight, hpc, Parent.rank, hwc.mpr (.inr rfl), Child.rank_forked, Child.rank_unborn]
    omega
  case close5 | close6 =>
    obtain rfl := Option.some.inj ha
    simp [weight, hpc, Parent.rank]
  case wait1 | wait2 =>
    obtain ⟨-, ha⟩ := Option.ite_none_right_eq_some.mp ha
    obtain rfl := Option.some.inj ha
    simp [weight, hpc, Parent.rank]
  case exited => simp at ha

theorem weight_step (h : Inv t output s) {a : Act} (ha : step cap t s a = some s') :
    weight s' < weight s := by
  cases a with
  | parent => exact weight_parent h ha
  | lsExec =>
    obtain ⟨⟨_, hls⟩, fds, -, rfl⟩ := step_lsExec h ha
    simp [weight, hls, Child.rank]
  | wcExec =>
    obtain ⟨⟨_, hwc⟩, fds, -, rfl⟩ := step_wcExec h ha
    simp [weight, hwc, Child.rank]
  | lsExit =>
    obtain ⟨⟨_, hls⟩, -, rfl⟩ := step_lsExit ha
    simp [weight, hls, Child.rank]
  | wcEof =>
    obtain ⟨⟨_, hwc⟩, -, -, rfl⟩ := step_wcEof ha
    simp [weight, hwc, Child.rank]
  | lsWrite k =>
    obtain ⟨-, left, pipe, hput, rfl⟩ := step_lsWrite h ha
    obtain ⟨happend, hlt, -⟩ := putBlock_eq_some hput
    have hlen := congrArg List.length happend
    simp only [List.length_append] at hlen
    simp only [weight]
    omega
  | wcRead k =>
    obtain ⟨-, block, pipe, happend, hne, rfl⟩ := step_wcRead ha
    have hpos := List.length_pos_of_ne_nil hne
    simp only [weight, ← happend, List.length_append]
    omega

section Stuck
variable (hs : (machine cap t output).Stuck s)
include hs

theorem parent_of_stuck : s.parent = .wait1 ∨ s.parent = .wait2 ∨ s.parent = .exited := by
  have hparent := hs .parent
  cases hpc : s.parent with
  | fork1 | fork2 | close5 | close6 => simp [machine, step, parentStep, hpc] at hparent
  | wait1 => exact .inl rfl
  | wait2 => exact .inr (.inl rfl)
  | exited => exact .inr (.inr rfl)

variable (h : Inv t output s)
include h

theorem wc_of_stuck : s.wc = .exited ∨ ∃ fds, s.wc = .running fds ∧ s.pipe = [] := by
  have hinv := h.wc
  cases hpc : s.wc with
  | unborn =>
    rcases parent_of_stuck hs with hp | hp | hp <;> simpa [hp] using h.wc_born.mp hpc
  | forked fds =>
    have hexec := hs .wcExec
    simp [machine, step, hpc] at hexec
  | running fds =>
    rw [hpc] at hinv
    refine .inr ⟨fds, rfl, ?_⟩
    have hread := hs (.wcRead 1)
    cases hpipe : s.pipe with
    | nil => rfl
    | cons b pipe => simp [machine, step, hpc, hinv.1, hpipe, takeBlock_one] at hread
  | exited => exact .inl rfl

theorem ls_of_stuck (hcap : 0 < cap) : s.ls = .exited := by
  have hinv := h.ls
  cases hpc : s.ls with
  | unborn =>
    rcases parent_of_stuck hs with hp | hp | hp <;> simpa [hp] using h.ls_born.mp hpc
  | forked fds =>
    have hexec := hs .lsExec
    simp [machine, step, hpc] at hexec
  | running fds =>
    rw [hpc] at hinv
    have hpipe : s.pipe = [] := by
      rcases wc_of_stuck hs h with hw | ⟨_, -, hpipe⟩
      · exact (h.wc_exited hw).2
      · exact hpipe
    have hholds := h.holds_readEnd (by simp [hpc])
    have hexit := hs .lsExit
    have hwrite := hs (.lsWrite 1)
    cases hleft : s.left with
    | nil => simp [machine, step, hpc, hleft] at hexit
    | cons b left =>
      simp [machine, step, hpc, hinv.1, hleft, hpipe, hholds, putBlock_one hcap] at hwrite
  | exited => rfl

theorem exited_of_stuck (hcap : 0 < cap) : s.parent = .exited := by
  have hls := ls_of_stuck hs h hcap
  have hwc : s.wc = .exited := by
    rcases wc_of_stuck hs h with hw | ⟨fds, hw, hpipe⟩
    · exact hw
    · rcases or_assoc.mpr (parent_of_stuck hs) with hp | hp
      · have hinv := h.wc
        rw [hw] at hinv
        have heof := hs .wcEof
        simp [machine, step, hw, hinv.1, hpipe, h.not_holds_writeEnd hls hp hw] at heof
      · exact (h.exited hp).2
  have hparent := hs .parent
  rcases parent_of_stuck hs with hp | hp | hp
  · simp [machine, step, parentStep, hp, hls] at hparent
  · simp [machine, step, parentStep, hp, hls, hwc] at hparent
  · exact hp

end Stuck

end Processes

/-- Whatever descriptors the program is started with, every run of the pipeline ends with both
children gone and the parent past its two waits, and `wc` has then read exactly what `ls` wrote.
`ls` never writes to a pipe without a reader, and `wc` sees no end of the file before `ls` exits. -/
theorem pipe_ls_wc_completes {α β : Type*} [DecidableEq α] (cap : ℕ) (hcap : 0 < cap) (t : Fds α)
    (output : List β) :
    (machine cap t output).Completes (fun s => s.parent = .exited) ∧
      ∀ s, (machine cap t output).Reachable s →
        s.input <+: output ∧
        (s.parent = .exited → s.ls = .exited ∧ s.wc = .exited ∧ s.input = output) ∧
        (s.wc = .exited → s.ls = .exited) ∧ (s.ls ≠ .exited → s.holds .readEnd) := by
  refine ⟨Machine.completes_of_weight (Inv t output) weight (fun _ h => h ▸ inv_start t output)
    (fun _ _ _ h ha => inv_step h ha) (fun _ _ _ h ha => weight_step h ha)
    fun _ h hs => exited_of_stuck hs h hcap, fun s hs => ?_⟩
  have h := inv_of_reachable hs
  have hstream := h.stream
  refine ⟨?_, fun hp => ?_, fun hw => (h.wc_exited hw).1, h.holds_readEnd⟩
  · rw [List.append_assoc] at hstream
    exact ⟨_, hstream⟩
  · obtain ⟨hls, hwc⟩ := h.exited hp
    rw [(h.wc_exited hwc).2, h.ls_exited hls, List.append_nil, List.append_nil] at hstream
    exact ⟨hls, hwc, hstream⟩

/-- Started with its standard input and output closed. -/
theorem pipe_ls_wc_completes_closed :
    (machine 1 [none, none, some "tty"] [1, 2, 3]).Completes (fun s => s.parent = .exited) :=
  (pipe_ls_wc_completes 1 one_pos _ _).1

end Tlpi.Pipes.PipeLsWc
