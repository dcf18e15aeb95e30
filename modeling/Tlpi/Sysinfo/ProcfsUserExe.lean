import Tlpi.Acl.ParseACL
import Tlpi.Lib.CString
import Tlpi.Lib.Strtol
import Tlpi.Namespaces.NsCapable
import Mathlib.Tactic

/-! `sysinfo/procfs_user_exe.c`: the processes of a user, as the files `/proc/PID/status` show them.
The directory may list processes whose files are gone. -/

namespace Tlpi.Sysinfo.ProcfsUserExe
open Lib Acl
open Namespaces.NsCapable (fgetsLines)

/-! ## The files -/

/-- What the program sees of a status file: the line with the name of the command, further lines,
the line with the user IDs, which starts with the real one, and whatever follows. The kernel writes
a newline in the name as an escape sequence. -/
structure Status where
  name : List Char
  between : List (List Char)
  ruid : ℕ
  rest : List Char
  name_line : '\n' ∉ name ∧ name.length ≤ 990
  between_lines : ∀ l ∈ between, '\n' ∉ l ∧ l.length ≤ 990 ∧
    "Name:".toList.isPrefixOf (l ++ ['\n']) = false ∧
    "Uid:".toList.isPrefixOf (l ++ ['\n']) = false
  ruid_lt : ruid < 2 ^ 32

def Status.uidText (st : Status) : List Char := "Uid:\t".toList ++ decimal st.ruid ++ ['\t']

def Status.text (st : Status) : List Char :=
  "Name:\t".toList ++ st.name ++ '\n' ::
    (st.between.flatMap (· ++ ['\n']) ++ (st.uidText ++ st.rest))

def statusPath (name : List Char) : List Char := "/proc/".toList ++ name ++ "/status".toList

/-- The files of the processes, by the names of their directories. -/
structure Proc where
  status : List Char → Option Status
  fopen : List Char → Option (List Char)
  fopen_status : ∀ name, fopen (statusPath name) = (status name).map Status.text

structure Dirent where
  isDir : Bool
  name : List Char
  length_le : name.length ≤ NAME_MAX

/-! ## The program -/

def MAX_LINE : ℕ := 1000

/-- `cmd` and `uid`, where they have been found. -/
structure Found where
  cmd : Option (List Char)
  uid : Option (BitVec 32)
  deriving DecidableEq

def scanLine (r : Found) (line : List Char) : Found :=
  let r :=
    if "Name:".toList.isPrefixOf line then
      { r with cmd := some (strncpy (MAX_LINE - 1) ((line.drop 5).dropWhile isspace)) }
    else r
  if "Uid:".toList.isPrefixOf line then
    { r with uid := some (BitVec.ofInt 32 (strtol (line.drop 4) 10).value) }
  else r

def scanLines : Found → List (List Char) → Found
  | r, [] => r
  | r, line :: lines =>
    if r.cmd.isSome && r.uid.isSome then r else scanLines (scanLine r line) lines

/-- The name with `%5s`. -/
def padded (name : List Char) : List Char := List.replicate (5 - name.length) ' ' ++ name

def showEntry (fopen : List Char → Option (List Char)) (checkedUid : BitVec 32) (dp : Dirent) :
    List Char :=
  if dp.isDir && dp.name.head?.any Char.isDigit then
    match fopen (snprintf PATH_MAX (statusPath dp.name)) with
    | none => []
    | some text =>
      match scanLines ⟨none, none⟩ (fgetsLines MAX_LINE [] text) with
      | ⟨some cmd, some uid⟩ => if uid = checkedUid then padded dp.name ++ ' ' :: cmd else []
      | _ => []
  else []

inductive Failure
  | usage
  | badUsername (name : List Char)
  deriving DecidableEq

def main (db : Database) (fopen : List Char → Option (List Char)) (argv : List (List Char))
    (dir : List Dirent) : Except Failure (List Char) :=
  match argv with
  | [] => .error .usage
  | user :: _ =>
    if user = "--help".toList then .error .usage
    else
      let checkedUid := userIdFromName db user
      if checkedUid = -1 then .error (.badUsername user)
      else .ok (dir.flatMap (showEntry fopen checkedUid))

/-! ## The lines of a file -/

theorem fgetsLines_line {size : ℕ} {l : List Char} (hl : '\n' ∉ l) (text : List Char) :
    ∀ line : List Char, line.length + l.length < size - 1 →
      fgetsLines size line (l ++ '\n' :: text) =
        (line ++ l ++ ['\n']) :: fgetsLines size [] text := by
  induction l with
  | nil =>
    intro line _
    rw [List.nil_append, fgetsLines, if_pos (.inl rfl), List.append_nil]
  | cons ch l ih =>
    intro line hlen
    rw [List.mem_cons, not_or] at hl
    rw [List.length_cons] at hlen
    have hgo : ¬ (ch = '\n' ∨ line.length + 1 = size - 1) := by
      rintro (h | h)
      · exact hl.1 h.symm
      · omega
    rw [List.cons_append, fgetsLines, if_neg hgo, ih hl.2 _ (by simp; omega),
      List.append_assoc line,
      List.singleton_append]

/-- A line keeps what has been read of it. -/
theorem fgetsLines_read {size : ℕ} (text : List Char) :
    ∀ line : List Char, line ≠ [] → ∃ l ls, fgetsLines size line text = l :: ls ∧ line <+: l := by
  induction text with
  | nil =>
    intro line hne
    exact ⟨line, [], by rw [fgetsLines, if_neg hne], List.prefix_rfl⟩
  | cons ch text ih =>
    intro line hne
    rw [fgetsLines]
    split
    · exact ⟨_, _, rfl, List.prefix_append _ _⟩
    · obtain ⟨l, ls, heq, hpre⟩ := ih (line ++ [ch]) (by simp)
      exact ⟨l, ls, heq, (List.prefix_append _ _).trans hpre⟩

/-- A short beginning of a line is read in one piece. -/
theorem fgetsLines_start {size : ℕ} {p : List Char} (hp : '\n' ∉ p) (text : List Char) :
    ∀ line : List Char, line.length + p.length < size - 1 → line ++ p ≠ [] →
      ∃ l ls, fgetsLines size line (p ++ text) = l :: ls ∧ line ++ p <+: l := by
  induction p with
  | nil =>
    intro line _ hne
    rw [List.append_nil] at hne ⊢
    exact fgetsLines_read text line hne
  | cons ch p ih =>
    intro line hlen hne
    rw [List.mem_cons, not_or] at hp
    rw [List.length_cons] at hlen
    have hgo : ¬ (ch = '\n' ∨ line.length + 1 = size - 1) := by
      rintro (h | h)
      · exact hp.1 h.symm
      · omega
    rw [List.cons_append, fgetsLines, if_neg hgo, List.append_cons line ch p]
    exact ih hp.2 (line ++ [ch]) (by simp; omega) (by simp)

theorem fgetsLines_between {size : ℕ} {ls : List (List Char)}
    (hls : ∀ l ∈ ls, '\n' ∉ l ∧ l.length < size - 1) (text : List Char) :
    fgetsLines size [] (ls.flatMap (· ++ ['\n']) ++ text) =
      ls.map (· ++ ['\n']) ++ fgetsLines size [] text := by
  induction ls with
  | nil => rfl
  | cons l ls ih =>
    obtain ⟨⟨hl, hlen⟩, hls⟩ := List.forall_mem_cons.mp hls
    rw [List.flatMap_cons, List.append_assoc, List.append_assoc, List.singleton_append,
      fgetsLines_line hl _ [] (by simpa using hlen), ih hls]
    rfl

/-! ## What is found -/

/-- The name as it is displayed. One that has nothing but white space takes the newline with it. -/
def shown (name : List Char) : List Char :=
  if name.all isspace then [] else name.dropWhile isspace ++ ['\n']

theorem dropWhile_name (name : List Char) :
    ('\t' :: (name ++ ['\n'])).dropWhile isspace = shown name := by
  rw [List.dropWhile_cons_of_pos (by decide), List.dropWhile_append, shown]
  by_cases h : name.all isspace = true
  · have hnil : name.dropWhile isspace = [] := List.dropWhile_eq_nil_iff.mpr (List.all_eq_true.mp h)
    rw [hnil, if_pos h]
    rfl
  · have hne : (name.dropWhile isspace).isEmpty ≠ true := fun hnil =>
      h (List.all_eq_true.mpr (List.dropWhile_eq_nil_iff.mp (List.isEmpty_iff.mp hnil)))
    rw [if_neg hne, if_neg h]

theorem length_shown_le (name : List Char) : (shown name).length ≤ name.length + 1 := by
  have hle := (List.dropWhile_sublist isspace (l := name)).length_le
  rw [shown]
  split
  · exact Nat.zero_le _
  · rw [List.length_append]
    exact Nat.add_le_add_right hle 1

theorem scanLine_name (r : Found) {name : List Char} (hname : name.length ≤ 990) :
    scanLine r ("Name:\t".toList ++ name ++ ['\n']) = { r with cmd := some (shown name) } := by
  have hdrop : ("Name:\t".toList ++ name ++ ['\n']).drop 5 = '\t' :: (name ++ ['\n']) := rfl
  have hcopy : strncpy (MAX_LINE - 1) (shown name) = shown name := by
    refine strncpy_of_le ((length_shown_le name).trans ?_)
    unfold MAX_LINE
    omega
  have hpos : "Name:".toList.isPrefixOf ("Name:\t".toList ++ name ++ ['\n']) = true := rfl
  have hneg : "Uid:".toList.isPrefixOf ("Name:\t".toList ++ name ++ ['\n']) = false := rfl
  simp only [scanLine, hpos, hneg, hdrop, dropWhile_name, hcopy, if_true, Bool.false_eq_true,
    if_false]

theorem scanLine_other (r : Found) {line : List Char}
    (hname : "Name:".toList.isPrefixOf line = false)
    (huid : "Uid:".toList.isPrefixOf line = false) : scanLine r line = r := by
  simp only [scanLine, hname, huid, Bool.false_eq_true, if_false]

theorem scanLine_uid (r : Found) {ruid : ℕ} (hruid : ruid < 2 ^ 32) (rest : List Char) :
    scanLine r ("Uid:\t".toList ++ decimal ruid ++ ['\t'] ++ rest) =
      { r with uid := some (BitVec.ofNat 32 ruid) } := by
  have hneg : "Name:".toList.isPrefixOf ("Uid:\t".toList ++ decimal ruid ++ ['\t'] ++ rest) =
      false := rfl
  have hpos : "Uid:".toList.isPrefixOf ("Uid:\t".toList ++ decimal ruid ++ ['\t'] ++ rest) =
      true := rfl
  have hdrop : ("Uid:\t".toList ++ decimal ruid ++ ['\t'] ++ rest).drop 4 =
      ['\t'] ++ decimal ruid ++ ('\t' :: rest) :=
    congrArg (List.cons '\t') (List.append_assoc ..)
  have hspace : ∀ c ∈ ['\t'], isspace c = true := List.all_eq_true.mp rfl
  have htab : ∀ c ∈ ('\t' :: rest).head?, c.isDigit = false := by
    rintro c ⟨⟩
    decide
  have hvalue : strtol (['\t'] ++ decimal ruid ++ ('\t' :: rest)) 10 =
      ⟨ruid, '\t' :: rest, false⟩ :=
    strtol_space_decimal hspace (by unfold LONG_MIN; omega) (by unfold LONG_MAX; omega) htab
  simp only [scanLine, hneg, hpos, hdrop, hvalue, if_true, Bool.false_eq_true, if_false,
    BitVec.ofInt_natCast]

/-- The lines between the name and the user IDs are read over. -/
theorem scanLines_between {r : Found} (hr : r.uid = none) {ls : List (List Char)}
    (hls : ∀ l ∈ ls, "Name:".toList.isPrefixOf l = false ∧ "Uid:".toList.isPrefixOf l = false)
    (lines : List (List Char)) : scanLines r (ls ++ lines) = scanLines r lines := by
  induction ls with
  | nil => rfl
  | cons l ls ih =>
    obtain ⟨⟨hname, huid⟩, hls⟩ := List.forall_mem_cons.mp hls
    rw [List.cons_append, scanLines, if_neg (by simp [hr]), scanLine_other r hname huid, ih hls]

theorem length_uidText_le (st : Status) : st.uidText.length ≤ 16 := by
  have hlt := st.ruid_lt
  have hdigits : (Nat.toDigits 10 st.ruid).length ≤ 10 :=
    Nat.toDigits_length 10 st.ruid 10 (by decide) (by omega)
  have hdec : decimal (st.ruid : ℤ) = Nat.toDigits 10 st.ruid := if_neg (by omega)
  have hlen : st.uidText.length = 5 + (decimal (st.ruid : ℤ)).length + 1 := by
    change ("Uid:\t".toList ++ decimal st.ruid ++ ['\t']).length = _
    rw [List.length_append, List.length_append]
    rfl
  rw [hlen, hdec]
  omega

theorem uidText_ne_nil (st : Status) : [] ++ st.uidText ≠ [] := List.cons_ne_nil 'U' _

theorem newline_notMem_uidText (st : Status) : '\n' ∉ st.uidText := by
  intro h
  rcases List.mem_append.mp h with h | h
  · rcases List.mem_append.mp h with h | h
    · exact absurd h (by decide)
    · rcases mem_decimal h with h | h <;> exact absurd h (by decide)
  · exact absurd h (by decide)

theorem scanLines_text (st : Status) :
    scanLines ⟨none, none⟩ (fgetsLines MAX_LINE [] st.text) =
      ⟨some (shown st.name), some (BitVec.ofNat 32 st.ruid)⟩ := by
  have hsize : MAX_LINE - 1 = 999 := rfl
  have huid := length_uidText_le st
  obtain ⟨l, ls, hl, w, hw⟩ := fgetsLines_start (newline_notMem_uidText st) st.rest []
    (by rw [hsize, List.length_nil]; omega) (uidText_ne_nil st)
  obtain ⟨hname, hlen⟩ := st.name_line
  have hline : '\n' ∉ "Name:\t".toList ++ st.name := by
    rw [List.mem_append, not_or]
    exact ⟨by decide, hname⟩
  have hlen' : ([] : List Char).length + ("Name:\t".toList ++ st.name).length < MAX_LINE - 1 := by
    rw [hsize, List.length_nil, List.length_append]
    have : "Name:\t".toList.length = 6 := rfl
    omega
  have htext : st.text = "Name:\t".toList ++ st.name ++ '\n' ::
      (st.between.flatMap (· ++ ['\n']) ++ (st.uidText ++ st.rest)) := rfl
  rw [htext, fgetsLines_line hline _ [] hlen', List.nil_append,
    fgetsLines_between (fun l hl => ⟨(st.between_lines l hl).1, by
      have := (st.between_lines l hl).2.1; omega⟩), hl]
  rw [scanLines, if_neg (by simp), scanLine_name _ hlen, scanLines_between rfl, ← hw]
  · have huidText : st.uidText = "Uid:\t".toList ++ decimal st.ruid ++ ['\t'] := rfl
    rw [scanLines, if_neg (by simp), List.nil_append, huidText, scanLine_uid _ st.ruid_lt]
    cases ls <;> simp [scanLines]
  · intro line hmem
    obtain ⟨l, hl, rfl⟩ := List.mem_map.mp hmem
    exact (st.between_lines l hl).2.2

/-! ## The processes of a user -/

/-- The line for one entry of the directory. -/
def processLine (p : Proc) (uid : BitVec 32) (dp : Dirent) : List Char :=
  if dp.isDir && dp.name.head?.any Char.isDigit then
    match p.status dp.name with
    | none => []
    | some st =>
      if BitVec.ofNat 32 st.ruid = uid then padded dp.name ++ ' ' :: shown st.name else []
  else []

theorem snprintf_statusPath (dp : Dirent) :
    snprintf PATH_MAX (statusPath dp.name) = statusPath dp.name := by
  refine snprintf_of_lt ?_
  have hle : dp.name.length ≤ 255 := dp.length_le
  have hlen : (statusPath dp.name).length = 6 + dp.name.length + 7 := by
    change ("/proc/".toList ++ dp.name ++ "/status".toList).length = _
    rw [List.length_append, List.length_append]
    rfl
  have hmax : PATH_MAX = 4096 := rfl
  omega

theorem showEntry_eq (p : Proc) (uid : BitVec 32) (dp : Dirent) :
    showEntry p.fopen uid dp = processLine p uid dp := by
  rw [showEntry, processLine, snprintf_statusPath, p.fopen_status]
  cases p.status dp.name with
  | none => rfl
  | some st => simp only [Option.map_some, scanLines_text]

end Tlpi.Sysinfo.ProcfsUserExe
