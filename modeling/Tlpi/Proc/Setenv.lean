import Tlpi.Lib.Keyed
import Tlpi.Lib.StringArray

/-! `setenv()` and `unsetenv()` of `proc/setenv.c`. A pointer into the array that `environ` points
to is the part of the array that begins there. -/

namespace Tlpi.Proc
open Lib

/-- `strncmp(s, name, len) == 0 && s[len] == '='`, where `len` is the length of the name. -/
def found (name s : List Char) : Bool := s.take name.length = name && s[name.length]? = some '='

/-- The inner loop of `unsetenv()` from `sp` on, undefined if it leaves the array. -/
def shift : List Slot → Option (List Slot)
  | some _ :: next :: rest => (shift (next :: rest)).map (next :: ·)
  | none :: rest => some (none :: rest)
  | _ => none

theorem entries_shift {sp sp' : List Slot} (h : shift sp = some sp') :
    entries sp' = (entries sp).tail := by
  fun_induction shift sp generalizing sp' with
  | case1 s next rest ih =>
    obtain ⟨t, ht, rfl⟩ := Option.map_eq_some_iff.mp h
    have htail := ih ht
    cases next with
    | none => rfl
    | some s' => exact congrArg (s' :: ·) htail
  | case2 rest =>
    cases h
    rfl
  | case3 sp hcons hnull => cases h

/-- The outer loop from `ep` on. -/
def unsetenvLoop (name : List Char) : List Slot → Option (List Slot)
  | [] => none
  | none :: rest => some (none :: rest)
  | some s :: rest =>
    if found name s then
      match _h : shift (some s :: rest) with
      | none => none
      | some ep => unsetenvLoop name ep
    else (unsetenvLoop name rest).map (some s :: ·)
termination_by ep => (entries ep).length
decreasing_by
  · rw [entries_shift _h]
    exact Nat.lt_succ_self _
  · exact Nat.lt_succ_self _

inductive Errno
  | EINVAL
  | ENOMEM
  deriving DecidableEq

/-- What a call returns and leaves behind. -/
structure Return where
  ret : ℤ
  errno : Option Errno
  environ : List Slot
  deriving DecidableEq

def validName (name : Option (List Char)) : Bool :=
  match name with
  | none | some [] => false
  | some name => (strchr '=' name).isNone

theorem validName_iff {name : Option (List Char)} :
    validName name = true ↔ ∃ s, name = some s ∧ s ≠ [] ∧ '=' ∉ s := by
  rcases name with _ | _ | ⟨c, s⟩
  · simp [validName]
  · simp [validName]
  · have hnone : (strchr '=' (c :: s)).isNone = true ↔ '=' ∉ c :: s := by
      rw [Option.isNone_iff_eq_none, strchr_eq_none_iff]
    simp only [validName, hnone, Option.some.injEq, exists_eq_left', ne_eq, reduceCtorEq,
      not_false_eq_true, true_and]

def unsetenv (environ : List Slot) (name : Option (List Char)) : Option Return :=
  if validName name then
    (unsetenvLoop (name.getD []) environ).map (⟨0, none, ·⟩)
  else some ⟨-1, some .EINVAL, environ⟩

/-! ## The C library -/

/-- A string that defines a variable takes the place of the first definition or is added. -/
def putenv (environ : List Slot) (string : List Char) : List Slot :=
  let name := string.takeWhile (· ≠ '=')
  (upsert (defines name) true (fun _ => string) string (entries environ)).map some ++ [none]

/-- Whether the calls of `setenv()` succeed. -/
structure Calls where
  malloc : Bool
  putenv : Bool

def setenv (environ : List Slot) (name value : Option (List Char)) (overwrite : ℤ)
    (calls : Calls) : Option Return :=
  match validName name, value with
  | true, some value =>
    let name := name.getD []
    if (getenv environ name).isSome ∧ overwrite = 0 then some ⟨0, none, environ⟩
    else
      (unsetenv environ (some name)).map fun r =>
        if calls.malloc then
          if calls.putenv then ⟨0, none, putenv r.environ (name ++ '=' :: value)⟩
          else ⟨-1, some .ENOMEM, r.environ⟩
        else ⟨-1, some .ENOMEM, r.environ⟩
  | _, _ => some ⟨-1, some .EINVAL, environ⟩

/-! ## Names -/

theorem found_eq (name s : List Char) : found name s = defines name s := by
  rw [Bool.eq_iff_iff, defines_iff, found, Bool.and_eq_true, decide_eq_true_eq, decide_eq_true_eq]
  constructor
  · rintro ⟨htake, hnext⟩
    refine ⟨s.drop (name.length + 1), ?_⟩
    obtain ⟨hlt, hget⟩ := List.getElem?_eq_some_iff.mp hnext
    rw [← hget, ← List.drop_eq_getElem_cons hlt]
    nth_rewrite 1 [← List.take_append_drop name.length s]
    rw [htake]
  · rintro ⟨v, rfl⟩
    simp

/-! ## The array -/

theorem shift_array (s : List Char) (es : List (List Char)) (behind : List Slot) :
    shift (array (s :: es) behind) = some (array es (none :: behind)) := by
  induction es generalizing s with
  | nil => rfl
  | cons s' es ih =>
    show (shift (array (s' :: es) behind)).map (some s' :: ·) = _
    rw [ih s']
    rfl

theorem unsetenvLoop_of_shift {name s : List Char} {rest ep : List Slot}
    (h : defines name s = true) (hshift : shift (some s :: rest) = some ep) :
    unsetenvLoop name (some s :: rest) = unsetenvLoop name ep := by
  rw [unsetenvLoop, found_eq, if_pos h]
  split
  · next hnone => cases hnone.symm.trans hshift
  · next ep' hsome => rw [Option.some.inj (hsome.symm.trans hshift)]

/-- The invariant of the outer loop is that the strings behind `ep` have not been looked at. -/
theorem unsetenvLoop_array (name : List Char) (es : List (List Char)) (behind : List Slot) :
    ∃ behind', unsetenvLoop name (array es behind) =
      some (array (es.filter fun s => !defines name s) behind') := by
  induction es generalizing behind with
  | nil =>
    refine ⟨behind, ?_⟩
    rw [List.filter_nil, array, List.map_nil, List.nil_append, unsetenvLoop]
  | cons s es ih =>
    by_cases h : defines name s = true
    · obtain ⟨behind', hloop⟩ := ih (none :: behind)
      refine ⟨behind', ?_⟩
      rw [List.filter_cons_of_neg (by simp [h]), ← hloop]
      exact unsetenvLoop_of_shift h (shift_array s es behind)
    · obtain ⟨behind', hloop⟩ := ih behind
      refine ⟨behind', ?_⟩
      rw [List.filter_cons_of_pos (by simpa using h)]
      show unsetenvLoop name (some s :: array es behind) = _
      rw [unsetenvLoop, found_eq, if_neg h, hloop]
      rfl

theorem find?_filter_of_ne {name m : List Char} (hname : '=' ∉ name) (hm : '=' ∉ m)
    (hne : m ≠ name) (es : List (List Char)) :
    (es.filter fun s => !defines name s).find? (defines m) = es.find? (defines m) := by
  rw [List.find?_filter]
  congr 1
  funext s
  cases hs : defines m s with
  | false => exact decide_eq_false fun h => nomatch h.2
  | true =>
    have hother : defines name s = false := by
      by_contra h
      exact hne (defines_unique hname hm (Bool.not_eq_false _ ▸ h) hs)
    rw [hother]
    rfl

section Environment

variable {name : List Char} (hne : name ≠ []) (heq : '=' ∉ name) (es : List (List Char))
  (behind : List Slot)

include hne heq in
theorem unsetenv_array : ∃ behind', unsetenv (array es behind) (some name) =
    some ⟨0, none, array (es.filter fun s => !defines name s) behind'⟩ := by
  obtain ⟨behind', hloop⟩ := unsetenvLoop_array name es behind
  refine ⟨behind', ?_⟩
  rw [unsetenv, if_pos (validName_iff.mpr ⟨name, rfl, hne, heq⟩), Option.getD_some, hloop]
  rfl

include heq in
theorem putenv_absent (value : List Char) (habsent : ∀ s ∈ es, defines name s = false) :
    putenv (array es behind) (name ++ '=' :: value) = array (es ++ [name ++ '=' :: value]) [] := by
  have hname : (name ++ '=' :: value).takeWhile (· ≠ '=') = name := by
    rw [List.takeWhile_append_of_pos]
    · simp
    · intro c hc
      rw [decide_eq_true_eq]
      rintro rfl
      exact heq hc
  rw [putenv, hname, entries_array, upsert_of_notMem]
  · rfl
  · intro hmem
    obtain ⟨s, hs, hdef⟩ := List.mem_map.mp hmem
    rw [habsent s hs] at hdef
    cases hdef

include hne heq in
/-- What `setenv()` leaves in the array for each outcome of its calls. -/
theorem setenv_array (value : List Char) (overwrite : ℤ) (calls : Calls)
    (hset : ¬((getenv (array es behind) name).isSome = true ∧ overwrite = 0)) :
    ∃ r, setenv (array es behind) (some name) (some value) overwrite calls = some r ∧
      (calls.malloc = true ∧ calls.putenv = true ∧ r.ret = 0 ∧ entries r.environ =
          (es.filter fun s => !defines name s) ++ [name ++ '=' :: value] ∨
        (calls.malloc = false ∨ calls.putenv = false) ∧ r.ret = -1 ∧
          entries r.environ = es.filter fun s => !defines name s) := by
  obtain ⟨behind', hunset⟩ := unsetenv_array hne heq es behind
  have hvalid : validName (some name) = true := validName_iff.mpr ⟨name, rfl, hne, heq⟩
  simp only [setenv, hvalid, Option.getD_some, if_neg hset, hunset, Option.map_some]
  refine ⟨_, rfl, ?_⟩
  obtain ⟨malloc, putenv⟩ := calls
  cases malloc with
  | false => exact .inr ⟨.inl rfl, rfl, entries_array _ _⟩
  | true =>
    cases putenv with
    | false => exact .inr ⟨.inr rfl, rfl, entries_array _ _⟩
    | true =>
      refine .inl ⟨rfl, rfl, rfl, ?_⟩
      simp only [if_true]
      rw [putenv_absent heq _ _ value, entries_array]
      intro s hs
      simpa using (List.mem_filter.mp hs).2

include hne heq in
theorem setenv_getenv_of_ne (value : List Char) (overwrite : ℤ) (calls : Calls) {m : List Char}
    (hm : '=' ∉ m) (hother : m ≠ name) :
    ∃ r, setenv (array es behind) (some name) (some value) overwrite calls = some r ∧
      getenv r.environ m = getenv (array es behind) m := by
  have hnew : defines m (name ++ '=' :: value) = false := by
    by_contra h
    exact hother (defines_unique heq hm (defines_iff.mpr ⟨value, rfl⟩) (Bool.not_eq_false _ ▸ h))
  by_cases hset : (getenv (array es behind) name).isSome = true ∧ overwrite = 0
  · refine ⟨⟨0, none, array es behind⟩, ?_, rfl⟩
    have hvalid : validName (some name) = true := validName_iff.mpr ⟨name, rfl, hne, heq⟩
    simp only [setenv, hvalid, Option.getD_some, if_pos hset]
  · obtain ⟨r, hr, h⟩ := setenv_array hne heq es behind value overwrite calls hset
    refine ⟨r, hr, ?_⟩
    unfold getenv
    rw [entries_array]
    congr 1
    rcases h with ⟨-, -, -, henv⟩ | ⟨-, -, henv⟩
    · rw [henv, List.find?_append, find?_filter_of_ne heq hm hother,
        List.find?_cons_of_neg (by simp [hnew]), List.find?_nil, Option.or_none]
    · rw [henv, find?_filter_of_ne heq hm hother]

include hne heq in
theorem setenv_defined (value : List Char) (calls : Calls)
    (hdef : getenv (array es behind) name ≠ none) :
    setenv (array es behind) (some name) (some value) 0 calls =
      some ⟨0, none, array es behind⟩ := by
  have hvalid : validName (some name) = true := validName_iff.mpr ⟨name, rfl, hne, heq⟩
  have hsome : (getenv (array es behind) name).isSome = true :=
    Option.isSome_iff_ne_none.mpr hdef
  simp only [setenv, hvalid, Option.getD_some, hsome, and_self, if_true]

include hne heq in
theorem setenv_succeeds (value : List Char) {overwrite : ℤ} {calls : Calls}
    (hset : overwrite ≠ 0 ∨ getenv (array es behind) name = none) (hmalloc : calls.malloc = true)
    (hputenv : calls.putenv = true) :
    ∃ r, setenv (array es behind) (some name) (some value) overwrite calls = some r ∧ r.ret = 0 ∧
      (entries r.environ).filter (defines name) = [name ++ '=' :: value] ∧
      getenv r.environ name = some value := by
  have hnot : ¬((getenv (array es behind) name).isSome = true ∧ overwrite = 0) := by
    rintro ⟨hsome, hzero⟩
    rcases hset with h | h
    · exact h hzero
    · rw [h] at hsome
      cases hsome
  obtain ⟨r, hr, h⟩ := setenv_array hne heq es behind value overwrite calls hnot
  rcases h with ⟨-, -, hret, henv⟩ | ⟨hfail, -⟩
  · have hnew : defines name (name ++ '=' :: value) = true := defines_iff.mpr ⟨value, rfl⟩
    have hold : ∀ s ∈ es.filter fun s => !defines name s, ¬defines name s = true := by
      intro s hs
      simpa using (List.mem_filter.mp hs).2
    refine ⟨r, hr, hret, ?_, ?_⟩
    · rw [henv, List.filter_append, List.filter_eq_nil_iff.mpr hold,
        List.filter_cons_of_pos hnew, List.filter_nil, List.nil_append]
    · rw [getenv, henv, List.find?_append, List.find?_eq_none.mpr hold, Option.none_or,
        List.find?_cons_of_pos hnew, Option.map_some]
      simp
  · rw [hmalloc, hputenv] at hfail
    simp at hfail

end Environment

theorem unsetenv_invalid (environ : List Slot) {name : Option (List Char)}
    (h : validName name = false) : unsetenv environ name = some ⟨-1, some .EINVAL, environ⟩ := by
  rw [unsetenv, if_neg (by simp [h])]

theorem setenv_invalid (environ : List Slot) {name value : Option (List Char)}
    (h : validName name = false ∨ value = none) (overwrite : ℤ) (calls : Calls) :
    setenv environ name value overwrite calls = some ⟨-1, some .EINVAL, environ⟩ := by
  unfold setenv
  split
  · next hvalid =>
    rcases h with h | h
    · cases hvalid.symm.trans h
    · cases h
  · rfl

/-- The environment is a map from names to values. -/
theorem setenv_unsetenv_map (es : List (List Char)) (behind : List Slot) (name : List Char)
    (hne : name ≠ []) (heq : '=' ∉ name) :
    (∃ r, unsetenv (array es behind) (some name) = some r ∧ r.ret = 0 ∧
      entries r.environ = (es.filter fun s => !defines name s) ∧
      ∀ m, '=' ∉ m → m ≠ name → getenv r.environ m = getenv (array es behind) m) ∧
    (∀ value overwrite calls, overwrite ≠ 0 ∨ getenv (array es behind) name = none →
      calls.malloc = true → calls.putenv = true →
      ∃ r, setenv (array es behind) (some name) (some value) overwrite calls = some r ∧ r.ret = 0 ∧
        (entries r.environ).filter (defines name) = [name ++ '=' :: value] ∧
        getenv r.environ name = some value) ∧
    (∀ value calls, getenv (array es behind) name ≠ none →
      setenv (array es behind) (some name) (some value) 0 calls =
        some ⟨0, none, array es behind⟩) ∧
    (∀ value overwrite calls m, '=' ∉ m → m ≠ name →
      ∃ r, setenv (array es behind) (some name) (some value) overwrite calls = some r ∧
        getenv r.environ m = getenv (array es behind) m) ∧
    (∀ name', (∀ s, name' = some s → s = [] ∨ '=' ∈ s) →
      unsetenv (array es behind) name' = some ⟨-1, some .EINVAL, array es behind⟩) ∧
    ∀ name' value overwrite calls, (∀ s, name' = some s → s = [] ∨ '=' ∈ s) ∨ value = none →
      setenv (array es behind) name' value overwrite calls =
        some ⟨-1, some .EINVAL, array es behind⟩ := by
  have hinvalid : ∀ name' : Option (List Char), (∀ s, name' = some s → s = [] ∨ '=' ∈ s) →
      validName name' = false := by
    intro name' h
    rw [Bool.eq_false_iff, ne_eq, validName_iff]
    rintro ⟨s, hs, hne, heq⟩
    exact (h s hs).elim hne heq
  refine ⟨?_, ?_, ?_, ?_, ?_, ?_⟩
  · obtain ⟨behind', hunset⟩ := unsetenv_array hne heq es behind
    refine ⟨_, hunset, rfl, entries_array _ _, ?_⟩
    intro m hm hother
    unfold getenv
    rw [entries_array, entries_array, find?_filter_of_ne heq hm hother]
  · intro value overwrite calls hset hmalloc hputenv
    exact setenv_succeeds hne heq es behind value hset hmalloc hputenv
  · intro value calls hdef
    exact setenv_defined hne heq es behind value calls hdef
  · intro value overwrite calls m hm hother
    exact setenv_getenv_of_ne hne heq es behind value overwrite calls hm hother
  · intro name' h
    exact unsetenv_invalid _ (hinvalid name' h)
  · intro name' value overwrite calls h
    exact setenv_invalid _ (h.imp_left (hinvalid name')) overwrite calls

/-- Two definitions, a name that is longer and a string without `=`. -/
theorem setenv_unsetenv_map_twice :
    ("A".toList ≠ [] ∧ '=' ∉ "A".toList) ∧
    ∃ r, unsetenv (array ["A=1".toList, "A=2".toList, "AB=3".toList, "A".toList] [])
        (some "A".toList) = some r ∧
      entries r.environ = ["AB=3".toList, "A".toList] ∧
      getenv r.environ "AB".toList = some "3".toList := by
  have hvalid : "A".toList ≠ [] ∧ '=' ∉ "A".toList := by decide
  obtain ⟨⟨r, hr, -, henv, hother⟩, -⟩ := setenv_unsetenv_map
    ["A=1".toList, "A=2".toList, "AB=3".toList, "A".toList] [] "A".toList hvalid.1 hvalid.2
  exact ⟨hvalid, r, hr, henv, (hother "AB".toList (by decide) (by decide)).trans (by decide)⟩

/-! ## Failures -/

theorem filter_not_defines_iff {name : List Char} {es : List (List Char)} :
    (es.filter fun s => !defines name s) = es ↔ ∀ s ∈ es, defines name s = false := by
  rw [List.filter_eq_self]
  simp

/-- The arguments are valid, and the variable is to be set. -/
theorem setenv_failed_of_set {name : List Char} (hne : name ≠ []) (heq : '=' ∉ name)
    (es : List (List Char)) (behind : List Slot) (value : List Char) (overwrite : ℤ) (calls : Calls)
    (hset : ¬ ((getenv (array es behind) name).isSome = true ∧ overwrite = 0)) :
    (∀ r, setenv (array es behind) (some name) (some value) overwrite calls = some r →
      r.ret = -1 → entries r.environ = es) ↔
    (calls.malloc = true ∧ calls.putenv = true) ∨ ∀ s ∈ es, defines name s = false := by
  obtain ⟨r, hr, h⟩ := setenv_array hne heq es behind value overwrite calls hset
  rw [hr]
  rcases h with ⟨hmalloc, hputenv, hret, -⟩ | ⟨hfail, hret, henv⟩
  · refine iff_of_true ?_ (.inl ⟨hmalloc, hputenv⟩)
    rintro _ ⟨⟩ hret'
    rw [hret] at hret'
    cases hret'
  · have hnot : ¬ (calls.malloc = true ∧ calls.putenv = true) := by
      rintro ⟨hmalloc, hputenv⟩
      rw [hmalloc, hputenv] at hfail
      simp at hfail
    rw [or_iff_right hnot, ← filter_not_defines_iff, ← henv]
    constructor
    · exact fun h => h r rfl hret
    · rintro h _ ⟨⟩ -
      exact h

/-- A failure after the old definitions have been removed does not bring them back. -/
theorem setenv_failed_unchanged_iff (es : List (List Char)) (behind : List Slot)
    (name value : Option (List Char)) (overwrite : ℤ) (calls : Calls) :
    (∀ r, setenv (array es behind) name value overwrite calls = some r → r.ret = -1 →
      entries r.environ = es) ↔
    validName name = false ∨ value = none ∨ overwrite = 0 ∨
      (calls.malloc = true ∧ calls.putenv = true) ∨
      ∀ s ∈ es, defines (name.getD []) s = false := by
  by_cases hinvalid : validName name = false ∨ value = none
  · refine iff_of_true ?_ (hinvalid.imp_right .inl)
    intro r hr _
    rw [setenv_invalid _ hinvalid] at hr
    cases hr
    exact entries_array _ _
  · obtain ⟨hvalid, hvalue⟩ := not_or.mp hinvalid
    rw [or_iff_right hvalid, or_iff_right hvalue]
    obtain ⟨name, rfl, hne, heq⟩ := validName_iff.mp (Bool.not_eq_false _ ▸ hvalid)
    obtain ⟨value, rfl⟩ := Option.ne_none_iff_exists'.mp hvalue
    by_cases hset : (getenv (array es behind) name).isSome = true ∧ overwrite = 0
    · obtain ⟨hdef, rfl⟩ := hset
      refine iff_of_true ?_ (.inl rfl)
      intro r hr hret
      rw [setenv_defined hne heq es behind value calls (Option.isSome_iff_ne_none.mp hdef)] at hr
      cases hr
      cases hret
    · rw [setenv_failed_of_set hne heq es behind value overwrite calls hset, Option.getD_some]
      refine ⟨.inr, fun h => h.elim (fun hzero => .inr ?_) id⟩
      -- the flag is not looked at if there is no definition
      intro s hs
      by_contra hdef
      exact hset ⟨getenv_isSome_iff.mpr ⟨s, hs, Bool.not_eq_false _ ▸ hdef⟩, hzero⟩

/-- There is no memory for the new definition of a variable. -/
theorem setenv_loses_definition :
    ∃ r, setenv (array ["TT=xxxxx".toList] []) (some "TT".toList) (some "one".toList) 1
        ⟨false, true⟩ = some r ∧
      r.ret = -1 ∧ entries r.environ = [] ∧ entries r.environ ≠ ["TT=xxxxx".toList] := by
  obtain ⟨r, hr, h⟩ := @setenv_array "TT".toList (by decide) (by decide) ["TT=xxxxx".toList] []
    "one".toList 1 ⟨false, true⟩ (by decide)
  rcases h with ⟨hmalloc, -⟩ | ⟨-, hret, henv⟩
  · cases hmalloc
  · have hnil : entries r.environ = [] := henv.trans (by decide)
    refine ⟨r, hr, hret, hnil, ?_⟩
    rw [hnil]
    exact (List.cons_ne_nil _ _).symm

end Tlpi.Proc
