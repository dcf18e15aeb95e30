import Tlpi.Lib.Numerals
import Tlpi.Lib.Outcome

/-! The numeric command-line arguments of `lib/get_num.c`. A failed check prints a diagnostic and
terminates the process, so the error of a conversion is the text that is printed. -/

namespace Tlpi.Common
open Lib

def GN_NONNEG : ℕ := 0o1
def GN_GT_0 : ℕ := 0o2
def GN_ANY_BASE : ℕ := 0o100
def GN_BASE_8 : ℕ := 0o200
def GN_BASE_16 : ℕ := 0o400

def gnFail (fname msg : String) (arg : Option (List Char)) (name : Option String) : String :=
  fname ++ " error" ++
  (match name with
    | some name => " (in " ++ name ++ ")"
    | none => "") ++
  ": " ++ msg ++ "\n" ++
  (match arg with
    | none | some [] => ""
    | some arg => "        offending text: " ++ String.ofList arg ++ "\n")

def baseOfFlags (flags : ℕ) : ℕ :=
  if flags &&& GN_ANY_BASE ≠ 0 then 0
  else if flags &&& GN_BASE_8 ≠ 0 then 8
  else if flags &&& GN_BASE_16 ≠ 0 then 16
  else 10

def getNum (fname : String) (arg : Option (List Char)) (flags : ℕ) (name : Option String) :
    Except String ℤ :=
  match arg with
  | none | some [] => .error (gnFail fname "null or empty string" arg name)
  | some text =>
    let res := strtol text (baseOfFlags flags)
    if res.erange then .error (gnFail fname "strtol() failed" arg name)
    else if res.rest ≠ [] then .error (gnFail fname "nonnumeric characters" arg name)
    else if flags &&& GN_NONNEG ≠ 0 ∧ res.value < 0 then
      .error (gnFail fname "negative value not allowed" arg name)
    else if flags &&& GN_GT_0 ≠ 0 ∧ res.value ≤ 0 then
      .error (gnFail fname "value must be > 0" arg name)
    else .ok res.value

def getLong (arg : Option (List Char)) (flags : ℕ) (name : Option String) : Except String ℤ :=
  getNum "getLong" arg flags name

def getInt (arg : Option (List Char)) (flags : ℕ) (name : Option String) : Except String ℤ :=
  match getNum "getInt" arg flags name with
  | .error e => .error e
  | .ok res =>
    if res > INT_MAX ∨ res < INT_MIN then
      .error (gnFail "getInt" "integer out of range" arg name)
    else .ok res

/-! ## What is accepted -/

/-- The whole argument is a numeral in the base that the flags give. Its value fits into a `long`
and has the sign that the flags ask for. -/
structure Accepted (arg : Option (List Char)) (flags : ℕ) (v : ℤ) : Prop where
  numeral : ∃ text, arg = some text ∧ Spells (baseOfFlags flags) text v
  fits : LONG_MIN ≤ v ∧ v ≤ LONG_MAX
  nonneg : flags &&& GN_NONNEG ≠ 0 → 0 ≤ v
  pos : flags &&& GN_GT_0 ≠ 0 → 0 < v

theorem baseOfFlags_le (flags : ℕ) : baseOfFlags flags ≤ 36 := by
  unfold baseOfFlags
  split_ifs <;> decide

theorem Accepted.ne_nil {text : List Char} {flags : ℕ} {v : ℤ}
    (h : Accepted (some text) flags v) : text ≠ [] := by
  obtain ⟨text', htext, hspells⟩ := h.numeral
  rw [Option.some.inj htext]
  exact hspells.ne_nil

theorem getNum_eq_ok_iff {fname : String} {arg : Option (List Char)} {flags : ℕ}
    {name : Option String} {v : ℤ} :
    getNum fname arg flags name = .ok v ↔ Accepted arg flags v := by
  rcases arg with _ | _ | ⟨c, text⟩
  · refine iff_of_false (fun h => nomatch h) fun h => ?_
    obtain ⟨text, harg, -⟩ := h.numeral
    cases harg
  · exact iff_of_false (fun h => nomatch h) fun h => h.ne_nil rfl
  · have hbase := baseOfFlags_le flags
    simp only [getNum, guard_eq_ok_iff, Except.ok.injEq]
    constructor
    · rintro ⟨herange, hrest, hnonneg, hpos, rfl⟩
      obtain ⟨w, hw⟩ := exists_spells (List.cons_ne_nil c text) (not_not.mp hrest)
      have hstrtol := hw.strtol_eq hbase
      rw [hstrtol] at herange
      have hfits := fits_of_erange (Bool.not_eq_true _ ▸ herange)
      rw [hstrtol, clampLong_of_fits hfits] at hnonneg hpos ⊢
      exact ⟨⟨_, rfl, hw⟩, hfits, fun hflag => not_lt.mp fun h => hnonneg ⟨hflag, h⟩,
        fun hflag => not_le.mp fun h => hpos ⟨hflag, h⟩⟩
    · rintro ⟨⟨_, ⟨⟩, hspells⟩, hfits, hnonneg, hpos⟩
      rw [hspells.strtol_eq hbase, clampLong_of_fits hfits]
      exact ⟨Bool.false_ne_true, not_not.mpr rfl, fun h => h.2.not_ge (hnonneg h.1),
        fun h => h.2.not_gt (hpos h.1), rfl⟩

theorem getNum_eq_error {fname : String} {arg : Option (List Char)} {flags : ℕ}
    {name : Option String} {e : String} (h : getNum fname arg flags name = .error e) :
    ∃ msg, e = gnFail fname msg arg name := by
  unfold getNum at h
  split at h
  · exact ⟨_, (Except.error.inj h).symm⟩
  · exact ⟨_, (Except.error.inj h).symm⟩
  · dsimp only at h
    split_ifs at h
    all_goals exact ⟨_, (Except.error.inj h).symm⟩

theorem getInt_eq_ok_iff {arg : Option (List Char)} {flags : ℕ} {name : Option String} {v : ℤ} :
    getInt arg flags name = .ok v ↔ Accepted arg flags v ∧ INT_MIN ≤ v ∧ v ≤ INT_MAX := by
  have hiff := @getNum_eq_ok_iff "getInt" arg flags name v
  rw [← hiff]
  unfold getInt
  cases getNum "getInt" arg flags name with
  | error e => simp
  | ok res =>
    simp only [guard_eq_ok_iff, Except.ok.injEq, not_or, not_lt]
    constructor
    · rintro ⟨⟨hmax, hmin⟩, rfl⟩
      exact ⟨rfl, hmin, hmax⟩
    · rintro ⟨rfl, hmin, hmax⟩
      exact ⟨⟨hmax, hmin⟩, rfl⟩

theorem getInt_eq_error {arg : Option (List Char)} {flags : ℕ} {name : Option String} {e : String}
    (h : getInt arg flags name = .error e) : ∃ msg, e = gnFail "getInt" msg arg name := by
  unfold getInt at h
  split at h
  · next heq =>
    obtain rfl := Except.error.inj h
    exact getNum_eq_error heq
  · split_ifs at h
    exact ⟨_, (Except.error.inj h).symm⟩

end Tlpi.Common
