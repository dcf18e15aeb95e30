import Tlpi.Lib.CString
import Tlpi.Lib.Outcome
import Tlpi.Lib.Strtol

/-! `parseOps()` of `svsem/svsem_op.c` against the grammar of its usage message. -/

namespace Tlpi.Svsem.SvsemOp

open Lib

def MAX_SEMOPS : ℕ := 1000
def IPC_NOWAIT : BitVec 16 := 0x800
def SEM_UNDO : BitVec 16 := 0x1000

structure Sembuf where
  sem_num : BitVec 16
  sem_op : BitVec 16
  sem_flg : BitVec 16
  deriving DecidableEq

/-- The loop over the flags, with the text at which it ends. -/
def flagLoop (sem_flg : BitVec 16) : List Char → BitVec 16 × List Char
  | [] => (sem_flg, [])
  | c :: flags =>
    if c = 'n' then flagLoop (sem_flg ||| IPC_NOWAIT) flags
    else if c = 'u' then flagLoop (sem_flg ||| SEM_UNDO) flags
    else (sem_flg, c :: flags)

def quoted (arg : List Char) : String := "\"" ++ String.ofList arg ++ "\""

/-- The semaphore number at the start of `remaining`. -/
def parseNum (arg remaining : List Char) : Except String Strtol :=
  if remaining = [] then .error ("Trailing comma or empty argument: " ++ quoted arg)
  else if remaining.head?.all fun c => !c.isDigit then
    .error ("Expected initial digit: " ++ quoted arg ++ "\n")
  else .ok (strtol remaining 10)

/-- The value behind the character that `sign` points to. -/
def parseValue (arg : List Char) : List Char → Except String (Char × Strtol)
  | [] => .error ("Expected '+', '-', or '=' in " ++ quoted arg ++ "\n")
  | sign :: behind =>
    if sign ∉ ['+', '-', '='] then .error ("Expected '+', '-', or '=' in " ++ quoted arg ++ "\n")
    else if behind.head?.all fun c => !c.isDigit then
      .error ("Expected digit after '" ++ String.singleton sign ++ "' in " ++ quoted arg ++ "\n")
    else .ok (sign, strtol behind 10)

/-- One iteration: the operation at the start of `remaining`. -/
def parseOp (arg remaining : List Char) : Except String Sembuf := do
  let num ← parseNum arg remaining
  let value ← parseValue arg num.rest
  let sem_op := BitVec.ofInt 16 value.2.value
  -- it is the `short` that is compared with 0
  if value.1 = '=' ∧ sem_op ≠ 0 then .error ("Expected \"=0\" in " ++ quoted arg ++ "\n")
  else
    let flags := flagLoop 0 value.2.rest
    if flags.2.head?.any fun c => c ≠ ',' then
      .error ("Bad trailing character (" ++ String.ofList (flags.2.take 1) ++ ") in " ++
        quoted arg ++ "\n")
    else .ok ⟨BitVec.ofInt 16 num.value, if value.1 = '-' then -sem_op else sem_op, flags.1⟩

/-- The loop of `parseOps()`, which has stored `sops`. -/
def parseOpsLoop (arg remaining : List Char) (numOps : ℕ) (sops : List Sembuf) :
    Except String (ℕ × List Sembuf) :=
  if numOps ≥ MAX_SEMOPS then
    .error ("Too many operations (maximum=" ++ toString MAX_SEMOPS ++ "): " ++ quoted arg ++ "\n")
  else
    match parseOp arg remaining with
    | .error msg => .error msg
    | .ok sop =>
      match _h : strchr ',' remaining with
      | none => .ok (numOps + 1, sops ++ [sop])
      | some (_, behind) => parseOpsLoop arg behind (numOps + 1) (sops ++ [sop])
termination_by remaining.length
decreasing_by exact strchr_length _h

/-- The number of operations, and the operations themselves. -/
def parseOps (arg : List Char) : Except String (ℕ × List Sembuf) := parseOpsLoop arg arg 0 []

/-! ## The grammar -/

inductive Sign
  | plus
  | minus
  | equals
  deriving DecidableEq

def Sign.char : Sign → Char
  | .plus => '+'
  | .minus => '-'
  | .equals => '='

/-- An operation as it is written, with numbers of any size. -/
structure Op where
  num : ℕ
  sign : Sign
  value : ℕ
  flags : List Char

def isFlag (c : Char) : Bool := c = 'n' || c = 'u'

/-- The text of an operation: digits, a sign, digits and flags. -/
def Writes (op : Op) (text : List Char) : Prop :=
  ∃ ds ds' : List Char, text = ds ++ op.sign.char :: (ds' ++ op.flags) ∧
    (ds ≠ [] ∧ ∀ c ∈ ds, c.isDigit = true) ∧ (ds' ≠ [] ∧ ∀ c ∈ ds', c.isDigit = true) ∧
    (∀ c ∈ op.flags, isFlag c = true) ∧
    op.num = digitsValue 10 ds ∧ op.value = digitsValue 10 ds'

/-- Operations separated by commas. -/
inductive Denotes : List Char → List Op → Prop
  | single {op : Op} {text : List Char} (h : Writes op text) : Denotes text [op]
  | cons {op : Op} {text rest : List Char} {ops : List Op} (h : Writes op text)
      (hrest : Denotes rest ops) : Denotes (text ++ ',' :: rest) (op :: ops)

/-- What `semop()` is to add to the semaphore. -/
def Op.delta (op : Op) : ℤ :=
  match op.sign with
  | .plus => op.value
  | .minus => -op.value
  | .equals => 0

def flagBits (flags : List Char) : BitVec 16 :=
  (if 'n' ∈ flags then IPC_NOWAIT else 0) ||| (if 'u' ∈ flags then SEM_UNDO else 0)

/-- The operations that can be carried out. -/
structure Op.InRange (op : Op) : Prop where
  num : op.num ≤ 65535
  value : op.value ≤ 32767
  zero : op.sign = .equals → op.value = 0

/-- The structure holds the operation. -/
structure Sembuf.Holds (sop : Sembuf) (op : Op) : Prop where
  sem_num : sop.sem_num.toNat = op.num
  sem_op : sop.sem_op.toInt = op.delta
  sem_flg : sop.sem_flg = flagBits op.flags

/-- An argument is accepted exactly if it denotes operations that can be carried out, and these are
returned. -/
structure Exact (arg : List Char) : Prop where
  accepts : ∀ ops, Denotes arg ops → ops.length ≤ MAX_SEMOPS → (∀ op ∈ ops, op.InRange) →
    ∃ sops, parseOps arg = .ok (ops.length, sops) ∧ List.Forall₂ Sembuf.Holds sops ops
  denotes : ∀ r, parseOps arg = .ok r →
    ∃ ops, Denotes arg ops ∧ ops.length ≤ MAX_SEMOPS ∧ ∀ op ∈ ops, op.InRange

/-! ## One operation -/

theorem flagBits_n (fl : List Char) : flagBits ('n' :: fl) = IPC_NOWAIT ||| flagBits fl := by
  by_cases hn : 'n' ∈ fl
  · simp [flagBits, hn, ← BitVec.or_assoc]
  · simp [flagBits, hn]

theorem flagBits_u (fl : List Char) : flagBits ('u' :: fl) = SEM_UNDO ||| flagBits fl := by
  by_cases hu : 'u' ∈ fl
  · simp [flagBits, hu, BitVec.or_comm SEM_UNDO, BitVec.or_assoc]
  · simp [flagBits, hu, BitVec.or_comm SEM_UNDO]

/-- Induction on the flags. -/
theorem flagLoop_append {fl : List Char} (hfl : ∀ c ∈ fl, isFlag c = true) {tail : List Char}
    (htail : ∀ c ∈ tail.head?, isFlag c = false) (acc : BitVec 16) :
    flagLoop acc (fl ++ tail) = (acc ||| flagBits fl, tail) := by
  induction fl generalizing acc with
  | nil =>
    have hzero : acc ||| flagBits [] = acc := BitVec.or_zero
    rw [hzero, List.nil_append]
    cases tail with
    | nil => rfl
    | cons c tail =>
      obtain ⟨hn, hu⟩ : c ≠ 'n' ∧ c ≠ 'u' := by simpa [isFlag] using htail c rfl
      rw [flagLoop, if_neg hn, if_neg hu]
  | cons c fl ih =>
    obtain ⟨hc, hrest⟩ := List.forall_mem_cons.mp hfl
    have hc' : c = 'n' ∨ c = 'u' := by simpa [isFlag] using hc
    rw [List.cons_append, flagLoop]
    rcases hc' with rfl | rfl
    · rw [if_pos rfl, ih hrest, flagBits_n, BitVec.or_assoc]
    · rw [if_neg (by decide), if_pos rfl, ih hrest, flagBits_u, BitVec.or_assoc]

/-- The `long` that `strtol()` returns for a number. -/
def toLong (n : ℕ) : ℤ := (clampLong n []).value

theorem clampLong_value (n : ℕ) (rest : List Char) : (clampLong n rest).value = toLong n := by
  unfold toLong clampLong
  split_ifs <;> rfl

/-- What is stored for an operation. -/
def encode (op : Op) : Sembuf :=
  ⟨BitVec.ofInt 16 (toLong op.num),
    if op.sign = .minus then -BitVec.ofInt 16 (toLong op.value)
    else BitVec.ofInt 16 (toLong op.value), flagBits op.flags⟩

/-- The test for `=0` fails. -/
def Op.Refused (op : Op) : Prop := op.sign = .equals ∧ BitVec.ofInt 16 (toLong op.value) ≠ 0

instance (op : Op) : Decidable op.Refused := inferInstanceAs (Decidable (_ ∧ _))

/-- What ends an operation. -/
def Ends (tail : List Char) : Prop := ∀ c ∈ tail.head?, c = ','

theorem Sign.char_mem (sign : Sign) : sign.char ∈ ['+', '-', '='] := by
  cases sign <;> decide

theorem Sign.exists_char {c : Char} (h : c ∈ ['+', '-', '=']) : ∃ sign : Sign, sign.char = c := by
  simp only [List.mem_cons, List.not_mem_nil, or_false] at h
  rcases h with rfl | rfl | rfl
  · exact ⟨.plus, rfl⟩
  · exact ⟨.minus, rfl⟩
  · exact ⟨.equals, rfl⟩

theorem Sign.head_not_digit (sign : Sign) (t : List Char) :
    ∀ c ∈ (sign.char :: t).head?, c.isDigit = false := by
  intro c hc
  obtain rfl : sign.char = c := Option.some.inj hc
  cases sign <;> decide

theorem Sign.char_inj {sign sign' : Sign} (h : sign.char = sign'.char) : sign = sign' := by
  revert h
  cases sign <;> cases sign' <;> decide

theorem parseNum_eq_ok_iff {arg remaining : List Char} {num : Strtol} :
    parseNum arg remaining = .ok num ↔
      (∃ c ∈ remaining.head?, c.isDigit = true) ∧ strtol remaining 10 = num := by
  rw [parseNum, guard_eq_ok_iff, guard_eq_ok_iff, Except.ok.injEq]
  cases remaining with
  | nil => simp
  | cons c t => simp

theorem parseValue_eq_ok_iff {arg text : List Char} {value : Char × Strtol} :
    parseValue arg text = .ok value ↔
      ∃ (sign : Sign) (behind : List Char), text = sign.char :: behind ∧
        (∃ c ∈ behind.head?, c.isDigit = true) ∧ (sign.char, strtol behind 10) = value := by
  constructor
  · intro h
    cases text with
    | nil => cases h
    | cons c behind =>
      rw [parseValue, guard_eq_ok_iff, guard_eq_ok_iff, Except.ok.injEq, not_not] at h
      obtain ⟨hsign, hdigit, hvalue⟩ := h
      obtain ⟨sign, rfl⟩ := Sign.exists_char hsign
      refine ⟨sign, behind, rfl, ?_, hvalue⟩
      cases behind with
      | nil => simp at hdigit
      | cons d t => simpa using hdigit
  · rintro ⟨sign, behind, rfl, ⟨c, hc, hdigit⟩, rfl⟩
    rw [parseValue, guard_eq_ok_iff, guard_eq_ok_iff, not_not]
    refine ⟨sign.char_mem, ?_, rfl⟩
    rw [Option.mem_def.mp hc]
    simp [hdigit]

/-- An operation with what comes behind it. -/
structure Split (op : Op) (ds ds' tail remaining : List Char) : Prop where
  text : remaining = ds ++ op.sign.char :: (ds' ++ (op.flags ++ tail))
  ds_ne : ds ≠ []
  ds_digit : ∀ c ∈ ds, c.isDigit = true
  ds'_ne : ds' ≠ []
  ds'_digit : ∀ c ∈ ds', c.isDigit = true
  flags : ∀ c ∈ op.flags, isFlag c = true
  num : op.num = digitsValue 10 ds
  value : op.value = digitsValue 10 ds'
  behind : ∀ c ∈ (op.flags ++ tail).head?, c.isDigit = false
  behind' : ∀ c ∈ tail.head?, isFlag c = false

section Split

variable {op : Op} {ds ds' tail remaining : List Char} (h : Split op ds ds' tail remaining)
include h

theorem Split.parseNum (arg : List Char) :
    parseNum arg remaining =
      .ok (clampLong op.num (op.sign.char :: (ds' ++ (op.flags ++ tail)))) := by
  rw [parseNum_eq_ok_iff, h.text, h.num]
  refine ⟨?_, strtol_digits h.ds_ne h.ds_digit (op.sign.head_not_digit _)⟩
  obtain ⟨d, t, rfl⟩ := List.exists_cons_of_ne_nil h.ds_ne
  exact ⟨d, rfl, h.ds_digit d List.mem_cons_self⟩

theorem Split.parseValue (arg : List Char) :
    parseValue arg (op.sign.char :: (ds' ++ (op.flags ++ tail))) =
      .ok (op.sign.char, clampLong op.value (op.flags ++ tail)) := by
  rw [parseValue_eq_ok_iff, h.value]
  refine ⟨op.sign, _, rfl, ?_, ?_⟩
  · obtain ⟨d, t, rfl⟩ := List.exists_cons_of_ne_nil h.ds'_ne
    exact ⟨d, rfl, h.ds'_digit d List.mem_cons_self⟩
  · rw [strtol_digits h.ds'_ne h.ds'_digit h.behind]

/-- The tests behind the two numbers. -/
theorem Split.parseOp_eq_ok_iff (arg : List Char) {sop : Sembuf} :
    parseOp arg remaining = .ok sop ↔ ¬ op.Refused ∧ Ends tail ∧ encode op = sop := by
  have hrefused : (op.sign.char = '=' ∧ BitVec.ofInt 16 (toLong op.value) ≠ 0) ↔ op.Refused := by
    unfold Op.Refused
    cases op.sign <;> simp [Sign.char]
  have hminus : op.sign.char = '-' ↔ op.sign = .minus := by
    cases op.sign <;> simp [Sign.char]
  have hends : (¬ (tail.head?.any fun c => c ≠ ',') = true) ↔ Ends tail := by
    cases tail <;> simp [Ends]
  rw [parseOp, h.parseNum, ok_bind, clampLong_rest, h.parseValue, ok_bind]
  simp only [clampLong_rest, clampLong_value, flagLoop_append h.flags h.behind']
  have hzero : (0 : BitVec 16) ||| flagBits op.flags = flagBits op.flags := BitVec.zero_or
  rw [guard_eq_ok_iff, guard_eq_ok_iff, hrefused, hends, Except.ok.injEq, hzero]
  simp only [hminus]
  rfl

end Split

theorem Ends.not_digit {tail : List Char} (h : Ends tail) :
    ∀ c ∈ tail.head?, c.isDigit = false ∧ isFlag c = false := by
  intro c hc
  rw [h c hc]
  decide

theorem Writes.split {op : Op} {text tail : List Char} (h : Writes op text) (htail : Ends tail) :
    ∃ ds ds', Split op ds ds' tail (text ++ tail) := by
  obtain ⟨ds, ds', rfl, ⟨hds, hdigit⟩, ⟨hds', hdigit'⟩, hflags, hnum, hvalue⟩ := h
  refine ⟨ds, ds', by simp, hds, hdigit, hds', hdigit', hflags, hnum, hvalue, ?_, ?_⟩
  · intro c hc
    cases hfl : op.flags with
    | nil =>
      rw [hfl] at hc
      exact (htail.not_digit c hc).1
    | cons f fl =>
      rw [hfl] at hc hflags
      obtain rfl : f = c := Option.some.inj hc
      have hf : f = 'n' ∨ f = 'u' := by simpa [isFlag] using hflags f List.mem_cons_self
      rcases hf with rfl | rfl <;> decide
  · intro c hc
    exact (htail.not_digit c hc).2

/-- A text is read in one way only. -/
theorem Split.det {op op' : Op} {ds ds' es es' tail tail' remaining : List Char}
    (h : Split op ds ds' tail remaining) (h' : Split op' es es' tail' remaining) :
    op = op' ∧ tail = tail' := by
  have htext := h.text.symm.trans h'.text
  obtain ⟨htake, hdrop⟩ := span_append h.ds_digit
    (op.sign.head_not_digit (ds' ++ (op.flags ++ tail)))
  obtain ⟨htake', hdrop'⟩ := span_append h'.ds_digit
    (op'.sign.head_not_digit (es' ++ (op'.flags ++ tail')))
  obtain ⟨htake₂, hdrop₂⟩ := span_append h.ds'_digit h.behind
  obtain ⟨htake₂', hdrop₂'⟩ := span_append h'.ds'_digit h'.behind
  obtain ⟨htake₃, hdrop₃⟩ := span_append h.flags h.behind'
  obtain ⟨htake₃', hdrop₃'⟩ := span_append h'.flags h'.behind'
  rw [htext] at htake hdrop
  obtain rfl : ds = es := htake.symm.trans htake'
  obtain ⟨hsign, hbehind⟩ := List.cons.inj (hdrop.symm.trans hdrop')
  rw [hbehind] at htake₂ hdrop₂
  obtain rfl : ds' = es' := htake₂.symm.trans htake₂'
  have hflags : op.flags ++ tail = op'.flags ++ tail' := hdrop₂.symm.trans hdrop₂'
  rw [hflags] at htake₃ hdrop₃
  refine ⟨?_, hdrop₃.symm.trans hdrop₃'⟩
  obtain ⟨num, sign, value, flags⟩ := op
  obtain ⟨num', sign', value', flags'⟩ := op'
  rw [Op.mk.injEq]
  exact ⟨h.num.trans h'.num.symm, Sign.char_inj hsign, h.value.trans h'.value.symm,
    htake₃.symm.trans htake₃'⟩

/-- What is accepted is an operation and what may come behind it. -/
theorem parseOp_sound {arg remaining : List Char} {sop : Sembuf}
    (h : parseOp arg remaining = .ok sop) :
    ∃ op text tail, remaining = text ++ tail ∧ Writes op text ∧ Ends tail := by
  obtain ⟨num, hnum, hrest⟩ := bind_eq_ok_iff.mp h
  obtain ⟨value, hvalue, -⟩ := bind_eq_ok_iff.mp hrest
  obtain ⟨⟨c, hc, hdigit⟩, rfl⟩ := parseNum_eq_ok_iff.mp hnum
  obtain ⟨sign, behind, hsign, ⟨d, hd, hdigit'⟩, -⟩ := parseValue_eq_ok_iff.mp hvalue
  obtain ⟨ds, rest, rfl, hds, hnot⟩ := exists_span Char.isDigit remaining
  obtain ⟨ds', rest', rfl, hds', hnot'⟩ := exists_span Char.isDigit behind
  obtain ⟨fl, tail, rfl, hfl, htail⟩ := exists_span isFlag rest'
  -- a text that starts with a digit has digits at its start
  have hne : ∀ {as bs : List Char} {c : Char}, c ∈ (as ++ bs).head? → c.isDigit = true →
      (∀ b ∈ bs.head?, b.isDigit = false) → as ≠ [] := by
    rintro as bs c hc hdigit hbs rfl
    rw [hbs c hc] at hdigit
    cases hdigit
  have hds_ne : ds ≠ [] := hne hc hdigit hnot
  have hds'_ne : ds' ≠ [] := hne hd hdigit' hnot'
  rw [strtol_digits hds_ne hds hnot, clampLong_rest] at hsign
  have hsplit : Split ⟨digitsValue 10 ds, sign, digitsValue 10 ds', fl⟩ ds ds' tail (ds ++ rest) :=
    ⟨by rw [hsign], hds_ne, hds, hds'_ne, hds', hfl, rfl, rfl, hnot', htail⟩
  obtain ⟨-, hends, -⟩ := (hsplit.parseOp_eq_ok_iff arg).mp h
  refine ⟨⟨digitsValue 10 ds, sign, digitsValue 10 ds', fl⟩, ds ++ sign.char :: (ds' ++ fl), tail,
    ?_, ⟨ds, ds', rfl, ⟨hds_ne, hds⟩, ⟨hds'_ne, hds'⟩, hfl, rfl, rfl⟩, hends⟩
  rw [hsign]
  simp

/-! ## The loop -/

theorem Writes.comma_not_mem {op : Op} {text : List Char} (h : Writes op text) : ',' ∉ text := by
  obtain ⟨ds, ds', rfl, ⟨-, hds⟩, ⟨-, hds'⟩, hflags, -⟩ := h
  have hdigit : ∀ {es : List Char}, (∀ c ∈ es, c.isDigit = true) → ',' ∉ es :=
    fun hes hmem => absurd (hes _ hmem) (by decide)
  have hflag : ',' ∉ op.flags := fun hmem => absurd (hflags _ hmem) (by decide)
  have hsign : ',' ≠ op.sign.char := by cases op.sign <;> decide
  simp [hdigit hds, hdigit hds', hflag, hsign]

section Loop

variable (arg : List Char) {remaining : List Char} {numOps : ℕ} {sops : List Sembuf}
  {r : ℕ × List Sembuf}

theorem parseOpsLoop_last (hcomma : ',' ∉ remaining) :
    parseOpsLoop arg remaining numOps sops = .ok r ↔
      numOps < MAX_SEMOPS ∧
        ∃ sop, parseOp arg remaining = .ok sop ∧ (numOps + 1, sops ++ [sop]) = r := by
  have hstrchr := strchr_eq_none_iff.mpr hcomma
  rw [parseOpsLoop, guard_eq_ok_iff, not_le]
  refine and_congr_right fun _ => ?_
  cases parseOp arg remaining with
  | error msg => simp
  | ok sop =>
    dsimp only
    split
    · simp
    · rename_i hsome
      cases hstrchr.symm.trans hsome

theorem parseOpsLoop_comma {text behind : List Char} (htext : ',' ∉ text) :
    parseOpsLoop arg (text ++ ',' :: behind) numOps sops = .ok r ↔
      numOps < MAX_SEMOPS ∧ ∃ sop, parseOp arg (text ++ ',' :: behind) = .ok sop ∧
        parseOpsLoop arg behind (numOps + 1) (sops ++ [sop]) = .ok r := by
  have hstrchr : strchr ',' (text ++ ',' :: behind) = some (text, behind) :=
    strchr_eq_some_iff.mpr ⟨rfl, htext⟩
  rw [parseOpsLoop, guard_eq_ok_iff, not_le]
  refine and_congr_right fun _ => ?_
  cases parseOp arg (text ++ ',' :: behind) with
  | error msg => simp
  | ok sop =>
    dsimp only
    split
    · rename_i hnone
      cases hnone.symm.trans hstrchr
    · rename_i hsome
      cases hsome.symm.trans hstrchr
      simp

end Loop

theorem ends_nil : Ends [] := fun _ h => nomatch h

theorem ends_comma (rest : List Char) : Ends (',' :: rest) := fun _ h => (Option.some.inj h).symm

theorem Writes.parseOp_eq_ok_iff {op : Op} {text tail : List Char} (h : Writes op text)
    (htail : Ends tail) (arg : List Char) {sop : Sembuf} :
    parseOp arg (text ++ tail) = .ok sop ↔ ¬ op.Refused ∧ encode op = sop := by
  obtain ⟨ds, ds', hsplit⟩ := h.split htail
  rw [hsplit.parseOp_eq_ok_iff, and_iff_right htail]

/-- Induction on the operations. -/
theorem Denotes.parseOpsLoop_eq_ok_iff {remaining : List Char} {ops : List Op}
    (h : Denotes remaining ops) (arg : List Char) (numOps : ℕ) (sops : List Sembuf)
    (r : ℕ × List Sembuf) :
    parseOpsLoop arg remaining numOps sops = .ok r ↔
      numOps + ops.length ≤ MAX_SEMOPS ∧ (∀ op ∈ ops, ¬ op.Refused) ∧
        (numOps + ops.length, sops ++ ops.map encode) = r := by
  induction h generalizing numOps sops with
  | @single op text h =>
    have hop : ∀ sop, parseOp arg text = .ok sop ↔ ¬ op.Refused ∧ encode op = sop := by
      intro sop
      rw [← h.parseOp_eq_ok_iff ends_nil arg, List.append_nil]
    rw [parseOpsLoop_last arg h.comma_not_mem]
    simp only [hop, List.length_singleton, List.forall_mem_singleton, List.map_singleton]
    refine and_congr_right fun _ => ?_
    constructor
    · rintro ⟨_, ⟨hnot, rfl⟩, hr⟩
      exact ⟨hnot, hr⟩
    · rintro ⟨hnot, hr⟩
      exact ⟨_, ⟨hnot, rfl⟩, hr⟩
  | @cons op text rest ops h _ ih =>
    rw [parseOpsLoop_comma arg h.comma_not_mem]
    simp only [h.parseOp_eq_ok_iff (ends_comma rest), ih, List.length_cons, List.forall_mem_cons,
      List.map_cons]
    have hlen : numOps + 1 + ops.length = numOps + (ops.length + 1) := by omega
    rw [hlen]
    constructor
    · rintro ⟨hlt, _, ⟨hnot, rfl⟩, hle, hall, hr⟩
      exact ⟨hle, ⟨hnot, hall⟩, by rw [← hr, List.append_assoc]; rfl⟩
    · rintro ⟨hle, ⟨hnot, hall⟩, hr⟩
      exact ⟨by omega, _, ⟨hnot, rfl⟩, hle, hall, by rw [← hr, List.append_assoc]; rfl⟩

/-- What is accepted is in the grammar. Induction on the length of the text. -/
theorem parseOpsLoop_sound {arg remaining : List Char} {numOps : ℕ} {sops : List Sembuf}
    {r : ℕ × List Sembuf} (h : parseOpsLoop arg remaining numOps sops = .ok r) :
    ∃ ops, Denotes remaining ops := by
  induction hlen : remaining.length using Nat.strong_induction_on generalizing
    remaining numOps sops with
  | h n ih =>
    obtain ⟨sop, hsop⟩ : ∃ sop, parseOp arg remaining = .ok sop := by
      rw [parseOpsLoop, guard_eq_ok_iff] at h
      cases hop : parseOp arg remaining with
      | error msg =>
        rw [hop] at h
        cases h.2
      | ok sop => exact ⟨sop, rfl⟩
    obtain ⟨op, text, tail, rfl, hwrites, hends⟩ := parseOp_sound hsop
    cases tail with
    | nil =>
      rw [List.append_nil]
      exact ⟨[op], .single hwrites⟩
    | cons c behind =>
      obtain rfl : c = ',' := hends c rfl
      obtain ⟨-, _, -, hloop⟩ := (parseOpsLoop_comma arg hwrites.comma_not_mem).mp h
      have hlt : behind.length < n := by
        rw [← hlen, List.length_append, List.length_cons]
        omega
      obtain ⟨ops, hops⟩ := ih behind.length hlt hloop rfl
      exact ⟨op :: ops, .cons hwrites hops⟩

theorem Writes.det {op op' : Op} {text text' tail tail' : List Char} (h : Writes op text)
    (h' : Writes op' text') (htail : Ends tail) (htail' : Ends tail')
    (heq : text ++ tail = text' ++ tail') : op = op' ∧ tail = tail' := by
  obtain ⟨ds, ds', hsplit⟩ := h.split htail
  obtain ⟨es, es', hsplit'⟩ := h'.split htail'
  rw [heq] at hsplit
  exact hsplit.det hsplit'

theorem Denotes.det {arg : List Char} {ops ops' : List Op} (h : Denotes arg ops)
    (h' : Denotes arg ops') : ops = ops' := by
  induction h generalizing ops' with
  | @single op text h =>
    generalize htext : text = arg at h'
    cases h' with
    | @single op' _ h' =>
      obtain ⟨rfl, -⟩ := h.det h' ends_nil ends_nil (by rw [htext])
      rfl
    | @cons op' text' rest' ops' h' _ =>
      obtain ⟨-, hnil⟩ := h.det h' ends_nil (ends_comma rest') (by rw [htext, List.append_nil])
      cases hnil
  | @cons op text rest ops h _ ih =>
    generalize htext : text ++ ',' :: rest = arg at h'
    cases h' with
    | @single op' _ h' =>
      obtain ⟨-, hnil⟩ := h.det h' (ends_comma rest) ends_nil (by rw [htext, List.append_nil])
      cases hnil
    | @cons op' text' rest' ops' h' hrest' =>
      obtain ⟨rfl, htail⟩ := h.det h' (ends_comma rest) (ends_comma rest') htext
      obtain ⟨-, rfl⟩ := List.cons.inj htail
      rw [ih hrest']

/-! ## What is returned -/

theorem toLong_eq {n : ℕ} (h : n ≤ 65535) : toLong n = n := by
  have hmax : ¬ (n : ℤ) > LONG_MAX := by
    unfold LONG_MAX
    omega
  have hmin : ¬ (n : ℤ) < LONG_MIN := by
    unfold LONG_MIN
    omega
  rw [toLong, clampLong, if_neg hmax, if_neg hmin]

theorem Op.InRange.not_refused {op : Op} (h : op.InRange) : ¬ op.Refused := by
  rintro ⟨hsign, hne⟩
  rw [h.zero hsign] at hne
  exact hne rfl

theorem Op.InRange.holds {op : Op} (h : op.InRange) : (encode op).Holds op := by
  have hvalue := h.value
  have hnum := h.num
  have hshort : (BitVec.ofInt 16 (toLong op.value)).toInt = op.value := by
    rw [toLong_eq (by omega), BitVec.toInt_ofInt]
    exact Int.bmod_eq_of_le (by omega) (by omega)
  refine ⟨?_, ?_, rfl⟩
  · show (BitVec.ofInt 16 (toLong op.num)).toNat = op.num
    rw [toLong_eq hnum, BitVec.toNat_ofInt]
    omega
  · unfold encode Op.delta
    cases hsign : op.sign with
    | plus => exact hshort
    | minus =>
      show (-BitVec.ofInt 16 (toLong op.value)).toInt = -(op.value : ℤ)
      rw [BitVec.toInt_neg, hshort]
      exact Int.bmod_eq_of_le (by omega) (by omega)
    | equals =>
      show (BitVec.ofInt 16 (toLong op.value)).toInt = 0
      rw [hshort, h.zero hsign]
      rfl

/-- `parseOps()` is exact on an argument in the grammar if one of its operations is refused, or if
all its numbers fit into the fields; other numbers are accepted and cut to 16 bits. -/
theorem parseOps_exact_iff (arg : List Char) :
    Exact arg ↔ ∀ ops, Denotes arg ops → ops.length ≤ MAX_SEMOPS →
      (∃ op ∈ ops, op.Refused) ∨ ∀ op ∈ ops, op.InRange := by
  constructor
  · intro h ops hden hlen
    by_cases hrefused : ∃ op ∈ ops, op.Refused
    · exact .inl hrefused
    · have hnot : ∀ op ∈ ops, ¬ op.Refused := fun op hop hr => hrefused ⟨op, hop, hr⟩
      have hok := (hden.parseOpsLoop_eq_ok_iff arg 0 [] _).mpr ⟨by omega, hnot, rfl⟩
      obtain ⟨ops', hden', -, hrange⟩ := h.denotes _ hok
      rw [hden.det hden']
      exact .inr hrange
  · intro h
    refine ⟨?_, ?_⟩
    · intro ops hden hlen hrange
      have hnot : ∀ op ∈ ops, ¬ op.Refused := fun op hop => (hrange op hop).not_refused
      refine ⟨ops.map encode, ?_, ?_⟩
      · rw [parseOps, hden.parseOpsLoop_eq_ok_iff]
        exact ⟨by omega, hnot, by rw [Nat.zero_add, List.nil_append]⟩
      · rw [List.forall₂_map_left_iff, List.forall₂_same]
        exact fun op hop => (hrange op hop).holds
    · intro r hr
      obtain ⟨ops, hden⟩ := parseOpsLoop_sound hr
      obtain ⟨hlen, hnot, -⟩ := (hden.parseOpsLoop_eq_ok_iff arg 0 [] r).mp hr
      rw [Nat.zero_add] at hlen
      rcases h ops hden hlen with ⟨op, hop, hrefused⟩ | hrange
      · exact absurd hrefused (hnot op hop)
      · exact ⟨ops, hden, hlen, hrange⟩

/-- The test for `=0` lets 65536 pass. -/
theorem parseOps_accepts_65536 :
    parseOps "0=65536".toList = .ok (1, [⟨0, 0, 0⟩]) ∧ ¬ Exact "0=65536".toList := by
  have hden : Denotes "0=65536".toList [⟨0, .equals, 65536, []⟩] :=
    .single ⟨"0".toList, "65536".toList, rfl, ⟨by decide, List.all_eq_true.mp rfl⟩,
      ⟨by decide, List.all_eq_true.mp rfl⟩, List.forall_mem_nil _, rfl, rfl⟩
  have hok : parseOps "0=65536".toList = .ok (1, [⟨0, 0, 0⟩]) := by
    rw [parseOps, hden.parseOpsLoop_eq_ok_iff]
    decide
  refine ⟨hok, ?_⟩
  intro h
  obtain ⟨ops, hden', -, hrange⟩ := h.denotes _ hok
  rw [← hden.det hden'] at hrange
  have hvalue := (hrange _ List.mem_cons_self).value
  exact absurd hvalue (by decide)

end Tlpi.Svsem.SvsemOp
