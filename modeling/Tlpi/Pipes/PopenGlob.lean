import Tlpi.Lib.CString
import Tlpi.Sysinfo.ProcfsUserExe
import Mathlib.Tactic

/-! The loop of `pipes/popen_glob.c`: what it makes of the patterns on its standard input, and how a
shell reads the commands that it is given. -/

namespace Tlpi.Pipes.PopenGlob
open Lib
open Namespaces.NsCapable (fgetsLines)
open Sysinfo.ProcfsUserExe (fgetsLines_between)

def PAT_SIZE : ℕ := 50

/-- `POPEN_FMT`, with the pattern in the place of the `%s`. -/
def popenFmt (pat : List Char) : List Char :=
  "/bin/ls -d ".toList ++ pat ++ " 2> /dev/null".toList

/-- The size of `POPEN_FMT` counts the `%s` and the null byte. -/
def PCMD_BUF_SIZE : ℕ := "/bin/ls -d %s 2> /dev/null".toList.length + 1 + PAT_SIZE

/-- What the string functions see of a buffer. -/
def cString (buf : List Char) : List Char := buf.takeWhile (· ≠ '\x00')

/-- `strchr()` also finds the null byte. -/
def isValid (c : Char) : Bool := c.isAlphanum || "_*?[^-].\x00".toList.contains c

inductive Request
  | skip
  | bad (c : Char)
  | glob (popenCmd : List Char)
  deriving DecidableEq

/-- What the program does with the text that `fgets()` leaves in `pat`. -/
def request (buf : List Char) : Request :=
  let pat := cString buf
  if pat.length ≤ 1 then .skip
  else
    let pat := if pat.getLast? = some '\n' then pat.dropLast ++ ['\x00'] else pat
    match pat.find? fun c => !isValid c with
    | some c => .bad c
    | none =>
      .glob (snprintf PCMD_BUF_SIZE (popenFmt (cString pat)))

/-- The output of a command, and its status. -/
structure Reply where
  text : List Char
  status : ℕ
  deriving DecidableEq

inductive Event
  | prompt
  | badPattern (c : Char)
  /-- The command is passed to a shell. -/
  | popen (popenCmd : List Char)
  | popenFailed
  /-- The lines of the command, and what is displayed behind them. -/
  | files (pathnames : List (List Char)) (fileCnt : ℕ) (status : ℕ)
  deriving DecidableEq

variable (popen : List Char → Option Reply)

def answer : Request → List Event
  | .skip => []
  | .bad c => [.badPattern c]
  | .glob popenCmd =>
    .popen popenCmd :: match popen popenCmd with
      | none => [.popenFailed]
      | some reply =>
        let pathnames := (fgetsLines PATH_MAX [] reply.text).map cString
        [.files pathnames pathnames.length reply.status]

def main (input : List Char) : List Event :=
  (fgetsLines PAT_SIZE [] input).flatMap (fun buf => .prompt :: answer popen (request buf)) ++
    [.prompt]

/-! ## The shell -/

inductive Token
  | word (text : List Char)
  | operator (c : Char)
  deriving DecidableEq

def word (text : List Char) : List Token := if text = [] then [] else [.word text]

/-- The words and the operators of a command without quoting and expansions other than those of
pathnames, where `text` has been read of a word; other commands are left to the shell. -/
def tokens : List Char → List Char → Option (List Token)
  | text, [] => some (word text)
  | text, c :: rest =>
    if c = ' ' ∨ c = '\t' then (tokens [] rest).map (word text ++ ·)
    else if c ∈ ";&|()<>\n".toList then (tokens [] rest).map (word text ++ .operator c :: ·)
    else if c ∈ "\\'\"$`#~!\x7b\x7d=%\x00".toList then none
    else tokens (text ++ [c]) rest

/-- A character of a word that the shell takes as it stands, or as part of a pattern. -/
def Plain (c : Char) : Prop :=
  ¬ (c = ' ' ∨ c = '\t') ∧ c ∉ ";&|()<>\n".toList ∧ c ∉ "\\'\"$`#~!\x7b\x7d=%\x00".toList

theorem tokens_word {w : List Char} (hw : ∀ c ∈ w, Plain c) (rest : List Char) :
    ∀ text, tokens text (w ++ rest) = tokens (text ++ w) rest := by
  induction w with
  | nil => simp
  | cons c w ih =>
    intro text
    obtain ⟨⟨hblank, hop, hquote⟩, hw⟩ := List.forall_mem_cons.mp hw
    rw [List.cons_append, tokens, if_neg hblank, if_neg hop, if_neg hquote, ih hw,
      List.append_assoc, List.singleton_append]

theorem tokens_blank (text rest : List Char) :
    tokens text (' ' :: rest) = (tokens [] rest).map (word text ++ ·) := by
  rw [tokens, if_pos (.inl rfl)]

instance (c : Char) : Decidable (Plain c) := inferInstanceAs (Decidable (_ ∧ _))

theorem plain_of_isValid {c : Char} (h : isValid c = true) (hnull : c ≠ '\x00') : Plain c := by
  have hblank : isValid ' ' = false ∧ isValid '\t' = false := by decide
  have hop : (";&|()<>\n".toList.all fun d => !isValid d) = true := by decide
  have hquote : ("\\'\"$`#~!\x7b\x7d=%\x00".toList.all
      fun d => d == '\x00' || !isValid d) = true := by decide
  refine ⟨?_, fun hc => ?_, fun hc => ?_⟩
  · rintro (rfl | rfl)
    · simp [hblank.1] at h
    · simp [hblank.2] at h
  · simpa [h] using List.all_eq_true.mp hop c hc
  · simpa [h, hnull] using List.all_eq_true.mp hquote c hc

/-- The shell reads three words and a redirection. -/
theorem tokens_popenFmt {pat : List Char} (hne : pat ≠ []) (hpat : ∀ c ∈ pat, Plain c) :
    tokens [] (popenFmt pat) = some
      [.word "/bin/ls".toList, .word "-d".toList, .word pat,
        .word "2".toList, .operator '>', .word "/dev/null".toList] := by
  have hls : ("/bin/ls".toList.all fun c => Plain c) = true := by decide
  have hd : ("-d".toList.all fun c => Plain c) = true := by decide
  have htail : tokens [] "2> /dev/null".toList = some
      [.word "2".toList, .operator '>', .word "/dev/null".toList] := by decide
  have hcmd : popenFmt pat = "/bin/ls".toList ++
      (' ' :: ("-d".toList ++ (' ' :: (pat ++ ' ' :: "2> /dev/null".toList)))) := by
    show "/bin/ls -d ".toList ++ pat ++ " 2> /dev/null".toList = _
    simp
  rw [hcmd, tokens_word (by simpa using List.all_eq_true.mp hls), tokens_blank,
    tokens_word (by simpa using List.all_eq_true.mp hd), tokens_blank, tokens_word hpat,
    tokens_blank, htail]
  simp [word, hne]

/-! ## The patterns -/

theorem cString_eq_self {l : List Char} (h : '\x00' ∉ l) : cString l = l :=
  List.takeWhile_eq_self_iff.mpr fun c hc => by
    rw [decide_eq_true_eq]
    rintro rfl
    exact h hc

theorem cString_append_null {l : List Char} (h : '\x00' ∉ l) : cString (l ++ ['\x00']) = l := by
  have hl : ∀ c ∈ l, decide (c ≠ '\x00') = true := fun c hc => by
    rw [decide_eq_true_eq]
    rintro rfl
    exact h hc
  rw [cString, List.takeWhile_append_of_pos hl, List.takeWhile_cons_of_neg (by decide),
    List.append_nil]

theorem null_notMem_cString (buf : List Char) : '\x00' ∉ cString buf := fun h => by
  simpa using List.mem_takeWhile_imp h

/-- The check of a pattern, without a newline. -/
def verdict (pat : List Char) : Request :=
  match pat.find? fun c => !isValid c with
  | some c => .bad c
  | none => .glob (popenFmt pat)

theorem snprintf_popenFmt {pat : List Char} (h : pat.length < PAT_SIZE) :
    snprintf PCMD_BUF_SIZE (popenFmt pat) = popenFmt pat := by
  apply snprintf_of_lt
  have hlen : (popenFmt pat).length = 11 + pat.length + 13 := by
    show ("/bin/ls -d ".toList ++ pat ++ " 2> /dev/null".toList).length = _
    simp
    omega
  have hsize : PCMD_BUF_SIZE = 27 + PAT_SIZE := rfl
  omega

/-- The newline makes room for a null byte, which the check of the characters lets through. -/
theorem request_newline {buf pat : List Char} (hbuf : cString buf = pat ++ ['\n']) (hne : pat ≠ [])
    (hlen : pat.length < PAT_SIZE) : request buf = verdict pat := by
  have hnull : '\x00' ∉ pat := fun h => null_notMem_cString buf (by simp [hbuf, h])
  have hlong : ¬ (pat ++ ['\n']).length ≤ 1 := by
    have := List.length_pos_of_ne_nil hne
    simp
    omega
  have hfind : (pat ++ ['\x00']).find? (fun c => !isValid c) = pat.find? fun c => !isValid c := by
    rw [List.find?_append]
    have hterminator : ['\x00'].find? (fun c => !isValid c) = none := by decide
    rw [hterminator, Option.or_none]
  simp only [request, hbuf, if_neg hlong, List.getLast?_concat, if_true, List.dropLast_concat,
    hfind, cString_append_null hnull, snprintf_popenFmt hlen, verdict]

theorem request_short {buf : List Char} (h : buf.length ≤ 1) : request buf = .skip := by
  have hle : (cString buf).length ≤ buf.length := (List.takeWhile_sublist _).length_le
  simp only [request, if_pos (hle.trans h)]

theorem request_rest {buf : List Char} (hlong : 1 < (cString buf).length)
    (hlast : (cString buf).getLast? ≠ some '\n') (hlen : (cString buf).length < PAT_SIZE) :
    request buf = verdict (cString buf) := by
  simp only [request, if_neg (not_le.mpr hlong), if_neg hlast,
    cString_eq_self (null_notMem_cString buf), snprintf_popenFmt hlen, verdict]

theorem fgetsLines_lines {size : ℕ} {ls : List (List Char)}
    (hls : ∀ l ∈ ls, '\n' ∉ l ∧ l.length < size - 1) :
    fgetsLines size [] (ls.flatMap (· ++ ['\n'])) = ls.map (· ++ ['\n']) := by
  have hread := fgetsLines_between hls []
  rwa [List.append_nil, fgetsLines, if_pos rfl, List.append_nil] at hread

theorem length_of_mem_fgetsLines {size : ℕ} (text : List Char) :
    ∀ line : List Char, line.length < size - 1 →
      ∀ l ∈ fgetsLines size line text, l.length ≤ size - 1 := by
  induction text with
  | nil =>
    intro line hlen l hl
    rw [fgetsLines] at hl
    split_ifs at hl
    · cases hl
    · rw [List.mem_singleton.mp hl]
      exact hlen.le
  | cons ch text ih =>
    intro line hlen l hl
    rw [fgetsLines] at hl
    split_ifs at hl with hend
    · rcases List.mem_cons.mp hl with rfl | hl
      · simpa using hlen
      · exact ih [] (Nat.zero_lt_of_lt hlen) l hl
    · exact ih _ (by simp; omega) l hl

/-- What goes to the shell is a pattern that has passed the check. -/
theorem glob_of_request {buf cmd : List Char} (hlen : buf.length < PAT_SIZE)
    (h : request buf = .glob cmd) :
    ∃ pat, pat ≠ [] ∧ '\x00' ∉ pat ∧ verdict pat = .glob cmd := by
  have hle : (cString buf).length ≤ buf.length := (List.takeWhile_sublist _).length_le
  have hlong : 1 < (cString buf).length := by
    by_contra hshort
    simp [request, not_lt.mp hshort] at h
  by_cases hlast : (cString buf).getLast? = some '\n'
  · obtain ⟨pat, hpat⟩ := List.getLast?_eq_some_iff.mp hlast
    have hne : pat ≠ [] := by
      rintro rfl
      simp [hpat] at hlong
    rw [hpat, List.length_append] at hle
    refine ⟨pat, hne, fun hmem => null_notMem_cString buf (by simp [hpat, hmem]), ?_⟩
    rw [← request_newline hpat hne (by omega), h]
  · refine ⟨cString buf, ?_, null_notMem_cString buf, ?_⟩
    · rintro hnil
      simp [hnil] at hlong
    · rw [← request_rest hlong hlast (by omega), h]

theorem of_verdict {pat cmd : List Char} (h : verdict pat = .glob cmd) :
    (∀ c ∈ pat, isValid c = true) ∧ cmd = popenFmt pat := by
  rw [verdict] at h
  split at h
  · cases h
  · rename_i hnone
    cases h
    exact ⟨by simpa using hnone, rfl⟩

theorem request_of_popen {popen : List Char → Option Reply} {q : Request} {cmd : List Char}
    (h : .popen cmd ∈ answer popen q) : q = .glob cmd := by
  cases q with
  | skip => cases h
  | bad c => simp [answer] at h
  | glob popenCmd =>
    rw [answer] at h
    split at h <;> simp at h <;> rw [h]

/-! ## Files without newlines in their names -/

/-- What `ls` displays for a command, one name a line. -/
structure Listing where
  names : List (List Char)
  status : ℕ
  name : ∀ n ∈ names, '\n' ∉ n ∧ '\x00' ∉ n ∧ n.length < PATH_MAX - 1

def Listing.reply (l : Listing) : Reply := ⟨l.names.flatMap (· ++ ['\n']), l.status⟩

/-- What the program is to do with a line. -/
def expected (ls : List Char → Option Listing) (line : List Char) : List Event :=
  if line = [] then []
  else
    match line.find? fun c => !isValid c with
    | some c => [.badPattern c]
    | none =>
      .popen (popenFmt line) :: match ls (popenFmt line) with
        | none => [.popenFailed]
        | some l => [.files (l.names.map (· ++ ['\n'])) l.names.length l.status]

theorem pathnames_reply (l : Listing) :
    (fgetsLines PATH_MAX [] l.reply.text).map cString = l.names.map (· ++ ['\n']) := by
  rw [Listing.reply, fgetsLines_lines fun n hn => ⟨(l.name n hn).1, (l.name n hn).2.2⟩,
    List.map_map]
  refine List.map_congr_left fun n hn => cString_eq_self ?_
  simp [(l.name n hn).2.1]

theorem answer_line (ls : List Char → Option Listing) {line : List Char}
    (hnull : '\x00' ∉ line) (hlen : line.length < PAT_SIZE) :
    answer (fun cmd => (ls cmd).map Listing.reply) (request (line ++ ['\n'])) =
      expected ls line := by
  have hbuf : cString (line ++ ['\n']) = line ++ ['\n'] := cString_eq_self (by simp [hnull])
  by_cases hne : line = []
  · subst hne
    rw [List.nil_append, request_short le_rfl]
    rfl
  · rw [request_newline hbuf hne hlen, verdict, expected, if_neg hne]
    split
    · rfl
    · rw [answer]
      cases ls (popenFmt line) with
      | none => rfl
      | some l =>
        simp only [Option.map_some, pathnames_reply, List.length_map]
        rfl

-- a pattern may start with a hyphen, which `ls` takes for an option
example : request "-R\n".toList = .glob "/bin/ls -d -R 2> /dev/null".toList := by decide

-- a line that is too long is taken for several patterns
example : (fgetsLines PAT_SIZE [] (List.replicate 60 'a')).map List.length = [49, 11] := by decide

end Tlpi.Pipes.PopenGlob
