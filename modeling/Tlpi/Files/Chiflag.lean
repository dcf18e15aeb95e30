import Tlpi.Lib.CString
import Tlpi.Lib.Faults

/-! `files/chiflag.c`, which changes the i-node flags of the files named on its command line. The
variable `attr` holds the mask and the flags that are set on a file, and goes from file to file. -/

namespace Tlpi.Files
open Lib

abbrev Flags := BitVec 32

def FS_SECRM_FL : Flags := 0x00000001
def FS_UNRM_FL : Flags := 0x00000002
def FS_COMPR_FL : Flags := 0x00000004
def FS_SYNC_FL : Flags := 0x00000008
def FS_IMMUTABLE_FL : Flags := 0x00000010
def FS_APPEND_FL : Flags := 0x00000020
def FS_NODUMP_FL : Flags := 0x00000040
def FS_NOATIME_FL : Flags := 0x00000080
def FS_JOURNAL_DATA_FL : Flags := 0x00004000
def FS_NOTAIL_FL : Flags := 0x00008000
def FS_DIRSYNC_FL : Flags := 0x00010000
def FS_TOPDIR_FL : Flags := 0x00020000

/-- The flag for a character of the attribute string; the others are a usage error. -/
def attributeFlag : Char → Option Flags
  | 'a' => some FS_APPEND_FL
  | 'A' => some FS_NOATIME_FL
  | 'c' => some FS_COMPR_FL
  | 'd' => some FS_NODUMP_FL
  | 'D' => some FS_DIRSYNC_FL
  | 'i' => some FS_IMMUTABLE_FL
  | 'j' => some FS_JOURNAL_DATA_FL
  | 's' => some FS_SECRM_FL
  | 'S' => some FS_SYNC_FL
  | 't' => some FS_NOTAIL_FL
  | 'T' => some FS_TOPDIR_FL
  | 'u' => some FS_UNRM_FL
  | _ => none

/-- The loop that builds the mask. -/
def buildMask (p : List Char) : Option Flags :=
  p.foldlM (fun attr c => (attributeFlag c).map (attr ||| ·)) 0

section Main
variable {ι : Type} [DecidableEq ι]

/-- The variable `attr`, the flags of the i-nodes, the calls of `FS_IOC_SETFLAGS` and the messages
of `errMsg()`. -/
structure State (ι : Type) where
  attr : Flags
  flags : ι → Flags
  sets : List (ι × Flags)
  messages : List String

def State.modify (op : Char) (fd : ι) (s : State ι) : State ι :=
  { s with attr := if op = '-' then s.flags fd &&& ~~~s.attr else s.flags fd ||| s.attr }

def State.setFlags (fd : ι) (s : State ι) : State ι :=
  { s with
    flags := Function.update s.flags fd s.attr
    sets := s.sets ++ [(fd, s.attr)] }

/-- The body of the loop over the files; `openFile` is `none` for a file that cannot be opened. -/
def changeFile (openFile : List Char → Option ι) (op : Char) (name : List Char) :
    Faulty (State ι) Unit :=
  match openFile name with
  | none => Faulty.update fun s =>
      { s with messages := s.messages ++ ["open: " ++ String.ofList name] }
  | some fd => do
    if op = '+' ∨ op = '-' then
      Faulty.call ("ioctl1: " ++ String.ofList name)
      Faulty.update (State.modify op fd)
    Faulty.call ("ioctl2: " ++ String.ofList name)
    Faulty.update (State.setFlags fd)
    Faulty.call "close"

inductive Status
  | usageError
  | errExit (message : String)
  | success
  | undefined
  deriving DecidableEq

structure Run (ι : Type) where
  status : Status
  state : State ι

/-- The program with the arguments behind its name. An empty first argument passes the test with
`strchr()`, and what lies behind its null byte is read then. -/
def main (openFile : List Char → Option ι) (flags : ι → Flags) (faults : List Bool)
    (args : List (List Char)) : Run ι :=
  let unchanged : State ι := ⟨0, flags, [], []⟩
  match args with
  | (op :: p) :: name :: names =>
    if (strchr op "+-=".toList).isNone ∨ op :: p = "--help".toList then ⟨.usageError, unchanged⟩
    else
      match buildMask p with
      | none => ⟨.usageError, unchanged⟩
      | some attr =>
        match (name :: names).forM (changeFile openFile op)
            ({ unchanged with attr := attr }, faults) with
        | .ok _ w => ⟨.success, w.1⟩
        | .error message w => ⟨.errExit message, w.1⟩
  | [] :: _ :: _ => ⟨.undefined, unchanged⟩
  | _ => ⟨.usageError, unchanged⟩

end Main

/-! ## Runs in which every call succeeds -/

section Runs
variable {ι : Type} [DecidableEq ι]

/-- The flags `old` changed by a mask. -/
def changed (op : Char) (old mask : Flags) : Flags :=
  if op = '-' then old &&& ~~~mask else if op = '+' then old ||| mask else mask

/-- One file that can be opened. -/
def visit (op : Char) (s : State ι) (fd : ι) : State ι :=
  { s with
    attr := changed op (s.flags fd) s.attr
    flags := Function.update s.flags fd (changed op (s.flags fd) s.attr)
    sets := s.sets ++ [(fd, changed op (s.flags fd) s.attr)] }

theorem changeFile_none {openFile : List Char → Option ι} {name : List Char}
    (h : openFile name = none) (op : Char) (s : State ι) :
    changeFile openFile op name (s, []) =
      .ok () ({ s with messages := s.messages ++ ["open: " ++ String.ofList name] }, []) := by
  rw [changeFile, h]
  rfl

theorem changeFile_some {openFile : List Char → Option ι} {name : List Char} {fd : ι}
    (h : openFile name = some fd) (op : Char) (s : State ι) :
    changeFile openFile op name (s, []) = .ok () (visit op s fd, []) := by
  rw [changeFile, h]
  by_cases hminus : op = '-'
  · subst hminus
    rfl
  · by_cases hplus : op = '+'
    · subst hplus
      rfl
    · simp only [hplus, hminus, or_self, if_false]
      show EStateM.Result.ok () (State.setFlags fd s, []) = _
      simp [State.setFlags, visit, changed, hplus, hminus]

/-- The flags that are set on the files, one after the other. -/
def chain (op : Char) : Flags → (ι → Flags) → List ι → List (ι × Flags)
  | _, _, [] => []
  | attr, flags, fd :: fds =>
    (fd, changed op (flags fd) attr) ::
      chain op (changed op (flags fd) attr)
        (Function.update flags fd (changed op (flags fd) attr)) fds

/-- The flags after these calls of `FS_IOC_SETFLAGS`. -/
def after (flags : ι → Flags) (sets : List (ι × Flags)) : ι → Flags :=
  sets.foldl (fun flags set => Function.update flags set.1 set.2) flags

theorem forM_changeFile (openFile : List Char → Option ι) (op : Char) (names : List (List Char))
    (s : State ι) :
    ∃ s', names.forM (changeFile openFile op) (s, []) = .ok () (s', []) ∧
      s'.sets = s.sets ++ chain op s.attr s.flags (names.filterMap openFile) ∧
      s'.flags = after s.flags (chain op s.attr s.flags (names.filterMap openFile)) := by
  induction names generalizing s with
  | nil => exact ⟨s, rfl, (List.append_nil _).symm, rfl⟩
  | cons name names ih =>
    show ∃ s', (changeFile openFile op name >>= fun _ => names.forM (changeFile openFile op))
      (s, []) = .ok () (s', []) ∧ _
    cases hopen : openFile name with
    | none =>
      rw [Faulty.bind_ok (changeFile_none hopen op s), List.filterMap_cons_none hopen]
      exact ih _
    | some fd =>
      obtain ⟨s', hrun, hsets, hflags⟩ := ih (visit op s fd)
      rw [Faulty.bind_ok (changeFile_some hopen op s), List.filterMap_cons_some hopen]
      refine ⟨s', hrun, hsets.trans ?_, hflags⟩
      exact List.append_assoc _ _ _

theorem strchr_operator {op : Char} (hop : op = '+' ∨ op = '-' ∨ op = '=') :
    (strchr op "+-=".toList).isNone = false := by
  rcases hop with rfl | rfl | rfl <;> rfl

theorem buildMask_help : buildMask "-help".toList = none := by decide

theorem main_sets {op : Char} (hop : op = '+' ∨ op = '-' ∨ op = '=') {p : List Char} {mask : Flags}
    (hmask : buildMask p = some mask) (openFile : List Char → Option ι) (flags : ι → Flags)
    (names : List (List Char)) :
    (main openFile flags [] ((op :: p) :: names)).state.sets =
      chain op mask flags (names.filterMap openFile) ∧
    (main openFile flags [] ((op :: p) :: names)).state.flags =
      after flags (chain op mask flags (names.filterMap openFile)) := by
  cases names with
  | nil => exact ⟨rfl, rfl⟩
  | cons name names =>
    have hpasses : ¬ ((strchr op "+-=".toList).isNone = true ∨ op :: p = "--help".toList) := by
      rintro (h | h)
      · rw [strchr_operator hop] at h
        cases h
      · have hp : p = "-help".toList := congrArg List.tail h
        rw [hp, buildMask_help] at hmask
        cases hmask
    obtain ⟨s', hrun, hsets, hflags⟩ := forM_changeFile openFile op (name :: names)
      ⟨mask, flags, [], []⟩
    unfold main
    dsimp only
    rw [if_neg hpasses, hmask]
    dsimp only
    rw [hrun]
    exact ⟨hsets, hflags⟩

end Runs

/-! ## One file after another -/

section Masks
variable {A B M : Flags}

theorem flags_eq_iff {x y : Flags} : x = y ↔ ∀ i < 32, x.getLsbD i = y.getLsbD i :=
  ⟨fun h _ _ => h ▸ rfl, fun h => BitVec.eq_of_getLsbD_eq h⟩

theorem or_or_eq_iff : B ||| (A ||| M) = B ||| M ↔ A &&& ~~~(B ||| M) = 0 := by
  rw [flags_eq_iff, flags_eq_iff]
  apply forall₂_congr
  intro i hi
  simp [hi]
  grind

theorem and_not_eq_iff :
    B &&& ~~~(A &&& ~~~M) = B &&& ~~~M ↔ A &&& B &&& ~~~M = 0 ∧ B &&& M = 0 := by
  simp only [flags_eq_iff, ← forall₂_and]
  apply forall₂_congr
  intro i hi
  simp [hi]
  grind

end Masks

/-- The pairs of a list and the elements before them. -/
theorem forall_pairs_cons {ι : Type*} {Q : List ι → ι → ι → Prop} {x y : ι} {l : List ι} :
    (∀ pre a b post, x :: y :: l = pre ++ a :: b :: post → Q pre a b) ↔
      Q [] x y ∧ ∀ pre a b post, y :: l = pre ++ a :: b :: post → Q (x :: pre) a b := by
  constructor
  · intro h
    refine ⟨h [] x y l rfl, ?_⟩
    intro pre a b post heq
    exact h (x :: pre) a b post (congrArg (x :: ·) heq)
  · rintro ⟨hfirst, hrest⟩ pre a b post heq
    cases pre with
    | nil =>
      cases heq
      exact hfirst
    | cons z pre =>
      obtain ⟨rfl, htail⟩ := List.cons.inj heq
      exact hrest pre a b post htail

section Pairs
variable {ι : Type} [DecidableEq ι] {op : Char} {mask : Flags} {flags : ι → Flags}

/-- What the flags of two files that follow each other must be, where `before` are the files up to
the first of them. -/
def Compatible (op : Char) (mask : Flags) (flags : ι → Flags) (before : List ι) (a b : ι) : Prop :=
  (op = '+' → flags a &&& ~~~(flags b ||| mask) = 0) ∧
  (op = '-' → flags a &&& flags b &&& ~~~mask = 0 ∧ (b ∉ before → flags b &&& mask = 0))

/-- The flags when these files have been changed. -/
def visited (op : Char) (mask : Flags) (flags : ι → Flags) (fds : List ι) (fd : ι) : Flags :=
  if fd ∈ fds then changed op (flags fd) mask else flags fd

theorem changed_changed (old : Flags) :
    changed op (changed op old mask) mask = changed op old mask := by
  unfold changed
  split_ifs
  · rw [BitVec.and_assoc, BitVec.and_self]
  · rw [BitVec.or_assoc, BitVec.or_self]
  · rfl

theorem changed_visited (fds : List ι) (fd : ι) :
    changed op (visited op mask flags fds fd) mask = changed op (flags fd) mask := by
  unfold visited
  split_ifs
  · exact changed_changed _
  · rfl

theorem visited_and_mask (fds : List ι) (fd : ι) :
    visited '-' mask flags fds fd &&& mask = 0 ↔ (fd ∉ fds → flags fd &&& mask = 0) := by
  unfold visited
  split_ifs with h
  · have hzero : changed '-' (flags fd) mask &&& mask = 0 := by
      show flags fd &&& ~~~mask &&& mask = 0
      rw [BitVec.and_assoc, BitVec.and_comm (~~~mask), BitVec.and_not_self]
      exact BitVec.and_zero
    exact iff_of_true hzero fun hnot => absurd h hnot
  · exact ⟨fun hb _ => hb, fun hb => hb h⟩

theorem compatible_iff (before : List ι) (a b : ι) :
    changed op (visited op mask flags before b) (changed op (flags a) mask) =
      changed op (flags b) mask ↔ Compatible op mask flags before a b := by
  have hmask := @changed_visited ι _ op mask flags before b
  rw [← hmask]
  by_cases hminus : op = '-'
  · subst hminus
    have hmask' : visited '-' mask flags before b &&& ~~~mask = flags b &&& ~~~mask := hmask
    show visited '-' mask flags before b &&& ~~~(flags a &&& ~~~mask) =
      visited '-' mask flags before b &&& ~~~mask ↔ _
    rw [and_not_eq_iff, BitVec.and_assoc, hmask', ← BitVec.and_assoc, visited_and_mask]
    simp [Compatible]
  · by_cases hplus : op = '+'
    · subst hplus
      have hmask' : visited '+' mask flags before b ||| mask = flags b ||| mask := hmask
      show visited '+' mask flags before b ||| (flags a ||| mask) =
        visited '+' mask flags before b ||| mask ↔ _
      rw [or_or_eq_iff, hmask']
      simp [Compatible]
    · simp [changed, Compatible, hminus, hplus]

theorem update_visited (fds : List ι) (fd : ι) :
    Function.update (visited op mask flags fds) fd (changed op (flags fd) mask) =
      visited op mask flags (fds ++ [fd]) := by
  funext x
  simp only [Function.update_apply, visited, List.mem_append, List.mem_singleton]
  by_cases hx : x = fd
  · rw [if_pos hx, if_pos (.inr hx), hx]
  · simp only [hx, or_false, if_false]

/-- From a file on: the files before it and the file itself have been changed as they should. -/
theorem chain_eq_iff (before : List ι) (a : ι) (fds : List ι) :
    chain op (changed op (flags a) mask) (visited op mask flags (before ++ [a])) fds =
      fds.map (fun fd => (fd, changed op (flags fd) mask)) ↔
    ∀ pre x y post, a :: fds = pre ++ x :: y :: post →
      Compatible op mask flags (before ++ pre ++ [x]) x y := by
  induction fds generalizing before a with
  | nil =>
    refine iff_of_true rfl ?_
    intro pre x y post h
    have hlength := congrArg List.length h
    simp at hlength
    omega
  | cons b fds ih =>
    rw [forall_pairs_cons, chain, List.map_cons, List.cons.injEq, Prod.mk.injEq,
      List.append_nil, compatible_iff]
    simp only [true_and]
    apply and_congr_right
    intro hab
    rw [(compatible_iff _ a b).mpr hab, update_visited, ih (before ++ [a]) b]
    simp only [List.append_assoc, List.cons_append, List.nil_append]

theorem chain_eq_iff_compatible (fds : List ι) :
    chain op mask flags fds = fds.map (fun fd => (fd, changed op (flags fd) mask)) ↔
    ∀ pre a b post, fds = pre ++ a :: b :: post → Compatible op mask flags (pre ++ [a]) a b := by
  cases fds with
  | nil =>
    refine iff_of_true rfl ?_
    intro pre a b post h
    simp at h
  | cons a fds =>
    have hvisited := @update_visited ι _ op mask flags [] a
    rw [List.nil_append] at hvisited
    have hiff := @chain_eq_iff ι _ op mask flags [] a fds
    simp only [List.nil_append] at hiff
    have hflags : visited op mask flags [] = flags := funext fun x => if_neg List.not_mem_nil
    rw [chain, List.map_cons, List.cons.injEq, and_iff_right rfl, ← hiff, ← hvisited, hflags]

theorem after_map (g : ι → Flags) (fds : List ι) :
    after flags (fds.map fun fd => (fd, g fd)) = fun fd => if fd ∈ fds then g fd else flags fd := by
  induction fds using List.reverseRecOn with
  | nil => rfl
  | append_singleton fds x ih =>
    have hlast : after flags ((fds ++ [x]).map fun fd => (fd, g fd)) =
        Function.update (after flags (fds.map fun fd => (fd, g fd))) x (g x) := by
      rw [List.map_append, after, List.foldl_append]
      rfl
    rw [hlast, ih]
    funext fd
    simp only [Function.update_apply, List.mem_append, List.mem_singleton]
    by_cases hfd : fd = x
    · rw [if_pos hfd, if_pos (.inr hfd), hfd]
    · simp only [hfd, or_false, if_false]

/-- `attr` still holds the flags of a file when the next one is changed. -/
theorem chiflag_independent_iff {op : Char} (hop : op = '+' ∨ op = '-' ∨ op = '=') {p : List Char}
    {mask : Flags} (hmask : buildMask p = some mask) (openFile : List Char → Option ι)
    (flags : ι → Flags) (names : List (List Char)) :
    ((main openFile flags [] ((op :: p) :: names)).state.sets =
        (names.filterMap openFile).map (fun fd => (fd, changed op (flags fd) mask)) ∧
      (main openFile flags [] ((op :: p) :: names)).state.flags =
        fun fd => if fd ∈ names.filterMap openFile then changed op (flags fd) mask else flags fd) ↔
    ∀ pre a b post, names.filterMap openFile = pre ++ a :: b :: post →
      (op = '+' → flags a &&& ~~~(flags b ||| mask) = 0) ∧
      (op = '-' → flags a &&& flags b &&& ~~~mask = 0 ∧
        (b ∉ pre ++ [a] → flags b &&& mask = 0)) := by
  obtain ⟨hsets, hflags⟩ := main_sets hop hmask openFile flags names
  have hiff := @chain_eq_iff_compatible ι _ op mask flags (names.filterMap openFile)
  rw [hsets, hflags]
  constructor
  · exact fun h => hiff.mp h.1
  · intro h
    rw [hiff.mpr h]
    exact ⟨rfl, after_map _ _⟩

end Pairs

/-- Two files of which only the second has another flag, and a third that cannot be opened. -/
theorem chiflag_independent_two :
    buildMask ['i'] = some FS_IMMUTABLE_FL ∧
    (main (fun name => if name = ['a'] then some false else if name = ['b'] then some true
          else none) (fun fd => if fd then FS_NOATIME_FL else 0) []
        [['+', 'i'], ['a'], ['c'], ['b']]).state.sets =
      [(false, FS_IMMUTABLE_FL), (true, FS_NOATIME_FL ||| FS_IMMUTABLE_FL)] := by
  have hmask : buildMask ['i'] = some FS_IMMUTABLE_FL := by decide
  refine ⟨hmask, ?_⟩
  have hiff := chiflag_independent_iff (.inl rfl) hmask
    (fun name => if name = ['a'] then some false else if name = ['b'] then some true else none)
    (fun fd => if fd then FS_NOATIME_FL else 0) [['a'], ['c'], ['b']]
  refine (hiff.mpr ?_).1
  intro pre a b post h
  have hpairs : ([false, true] : List Bool) = pre ++ a :: b :: post := h
  rcases pre with _ | ⟨x, pre⟩
  · cases hpairs
    exact ⟨fun _ => by decide, fun h => absurd h (by decide)⟩
  · have hlength := congrArg List.length hpairs
    simp at hlength
    omega

/-- The second file is given the flag of the first one. -/
theorem chiflag_adds_flag_of_other_file :
    (main (fun name => if name = ['a'] then some false else some true)
        (fun fd => if fd then 0 else FS_NOATIME_FL) [] [['+', 'i'], ['a'], ['b']]).state.sets =
      [(false, FS_NOATIME_FL ||| FS_IMMUTABLE_FL), (true, FS_NOATIME_FL ||| FS_IMMUTABLE_FL)] ∧
    (main (fun name => if name = ['a'] then some false else some true)
        (fun fd => if fd then 0 else FS_NOATIME_FL) [] [['+', 'i'], ['b'], ['a']]).state.sets =
      [(true, FS_IMMUTABLE_FL), (false, FS_NOATIME_FL ||| FS_IMMUTABLE_FL)] ∧
    changed '+' 0 FS_IMMUTABLE_FL ≠ FS_NOATIME_FL ||| FS_IMMUTABLE_FL := by
  decide

end Tlpi.Files
