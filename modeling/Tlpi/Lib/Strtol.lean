import Mathlib.Data.List.TakeWhile
import Mathlib.Tactic

/-! `strtol()` as ISO C has it, with a 64-bit `long`; `atoi()`; the `Atoi` of Go's `strconv`; and
the text that `printf()` writes for `%d`, which `strtol()` reads back. -/

namespace Tlpi.Lib

def LONG_MAX : ℤ := 2 ^ 63 - 1
def LONG_MIN : ℤ := -2 ^ 63
def INT_MAX : ℤ := 2 ^ 31 - 1
def INT_MIN : ℤ := -2 ^ 31

def isspace (c : Char) : Bool := c == ' ' || (9 ≤ c.toNat && c.toNat ≤ 13)

/-- The value of a digit or letter as a digit, and 36 for any other character. -/
def digitValue (c : Char) : ℕ :=
  if c.isDigit then c.toNat - '0'.toNat
  else if c.isLower then c.toNat - 'a'.toNat + 10
  else if c.isUpper then c.toNat - 'A'.toNat + 10
  else 36

def isDigitOf (base : ℕ) (c : Char) : Bool := digitValue c < base

/-- Whether there is a minus sign, and the text after the optional sign. -/
def signOf : List Char → Bool × List Char
  | '-' :: t => (true, t)
  | '+' :: t => (false, t)
  | t => (false, t)

/-- The base of the numeral and its text after an optional `0x`, which needs a digit behind it. -/
def baseOf (base : ℕ) (t : List Char) : ℕ × List Char :=
  match t with
  | '0' :: x :: d :: u =>
    if (base = 0 ∨ base = 16) ∧ (x = 'x' ∨ x = 'X') ∧ isDigitOf 16 d then (16, d :: u)
    else (if base = 0 then 8 else base, t)
  | '0' :: _ => (if base = 0 then 8 else base, t)
  | _ => (if base = 0 then 10 else base, t)

def digitsValue (base : ℕ) (ds : List Char) : ℕ :=
  ds.foldl (fun v c => base * v + digitValue c) 0

structure Strtol where
  value : ℤ
  /-- What `endptr` points to. -/
  rest : List Char
  /-- `errno` is set to ERANGE. -/
  erange : Bool
  deriving DecidableEq

/-- The nearest `long`, and whether it is another number. -/
def clampLong (v : ℤ) (rest : List Char) : Strtol :=
  if v > LONG_MAX then ⟨LONG_MAX, rest, true⟩
  else if v < LONG_MIN then ⟨LONG_MIN, rest, true⟩
  else ⟨v, rest, false⟩

def strtol (s : List Char) (base : ℕ) : Strtol :=
  let (neg, t) := signOf (s.dropWhile isspace)
  let (b, u) := baseOf base t
  let ds := u.takeWhile (isDigitOf b)
  if ds = [] then ⟨0, s, false⟩
  else clampLong (if neg then -digitsValue b ds else digitsValue b ds) (u.dropWhile (isDigitOf b))

/-- `atoi()`: the result of `strtol()` converted to a 32-bit `int`. -/
def atoi (s : List Char) : ℤ := (strtol s 10).value.bmod (2 ^ 32)

-- Go stops at the first digit that does not fit into 64 bits, whatever comes after it
def parseUint (n : ℕ) : List Char → Option ℕ
  | [] => some n
  | c :: s =>
    if isDigitOf 10 c then
      if 10 * n + digitValue c < 2 ^ 64 then parseUint (10 * n + digitValue c) s
      else some (2 ^ 64 - 1)
    else none

/-- The number that `strconv.Atoi` returns: 0 with a syntax error, the nearest 64-bit number with a
range error. -/
def strconvAtoi (s : List Char) : ℤ :=
  let (neg, t) := signOf s
  match t with
  | [] => 0
  | _ =>
    match parseUint 0 t with
    | none => 0
    | some un => if neg then max (-un) LONG_MIN else min un LONG_MAX

/-- What `printf()` writes for `%d`. -/
def decimal (z : ℤ) : List Char :=
  if z < 0 then '-' :: Nat.toDigits 10 z.natAbs else Nat.toDigits 10 z.natAbs

/-! ## Digits -/

theorem digitValue_of_isDigit {c : Char} (h : c.isDigit = true) :
    digitValue c = c.toNat - '0'.toNat := if_pos h

theorem isDigitOf_ten_of_isDigit {c : Char} (h : c.isDigit = true) : isDigitOf 10 c = true := by
  have hle : c.toNat ≤ 57 := by
    simp only [Char.isDigit, Bool.and_eq_true, decide_eq_true_eq] at h
    exact h.2
  rw [isDigitOf, digitValue_of_isDigit h, decide_eq_true_eq, show '0'.toNat = 48 from rfl]
  omega

theorem digitsValue_of_isDigit {ds : List Char} (h : ∀ c ∈ ds, c.isDigit = true) :
    digitsValue 10 ds = Nat.ofDigitChars 10 ds 0 := by
  rw [Nat.ofDigitChars_eq_foldl]
  exact List.foldl_ext _ _ _ fun v c hc => by rw [digitValue_of_isDigit (h c hc)]

theorem isDigit_of_mem_toDigits_ten {n : ℕ} : ∀ c ∈ Nat.toDigits 10 n, c.isDigit = true :=
  fun _ hc => Nat.isDigit_of_mem_toDigits (by decide) (by decide) hc

theorem digitsValue_toDigits (n : ℕ) : digitsValue 10 (Nat.toDigits 10 n) = n := by
  rw [digitsValue_of_isDigit isDigit_of_mem_toDigits_ten]
  exact Nat.ofDigitChars_toDigits (by decide) (by decide)

theorem baseOf_ten (t : List Char) : baseOf 10 t = (10, t) := by
  unfold baseOf
  split <;> simp

theorem not_isspace_of_isDigit {c : Char} (h : c.isDigit = true) : isspace c = false := by
  have hge : 48 ≤ c.toNat := by
    simp only [Char.isDigit, Bool.and_eq_true, decide_eq_true_eq] at h
    exact h.1
  have hne : c ≠ ' ' := fun hc => by rw [hc] at hge; exact absurd hge (by decide)
  have : ¬ c.toNat ≤ 13 := by omega
  simp [isspace, hne, this]

theorem ne_sign_of_isDigit {c : Char} (h : c.isDigit = true) : c ≠ '+' ∧ c ≠ '-' := by
  constructor
  · rintro rfl
    exact absurd h (by decide)
  · rintro rfl
    exact absurd h (by decide)

/-! ## Signs and white space -/

section Sign
variable {space sign t : List Char} (hsign : sign = [] ∨ sign = ['+'] ∨ sign = ['-'])
include hsign

theorem signOf_append (ht : ∀ c ∈ t.head?, c ≠ '+' ∧ c ≠ '-') :
    signOf (sign ++ t) = (decide (sign = ['-']), t) := by
  rcases hsign with rfl | rfl | rfl
  · rw [List.nil_append]
    unfold signOf
    split
    · exact absurd rfl (ht '-' rfl).2
    · exact absurd rfl (ht '+' rfl).1
    · rfl
  · rfl
  · rfl

theorem head_not_isspace (ht : ∀ c ∈ t.head?, isspace c = false) :
    ∀ c ∈ (sign ++ t).head?, isspace c = false := by
  intro c hc
  rcases hsign with rfl | rfl | rfl
  · exact ht c hc
  · obtain rfl : '+' = c := Option.some.inj hc
    rfl
  · obtain rfl : '-' = c := Option.some.inj hc
    rfl

end Sign

/-! ## Numerals -/

theorem isDigitOf_ten (c : Char) : isDigitOf 10 c = c.isDigit := by
  cases h : c.isDigit with
  | true => exact isDigitOf_ten_of_isDigit h
  | false =>
    rw [isDigitOf, decide_eq_false_iff_not, digitValue, if_neg (by simp [h])]
    split_ifs <;> omega

/-- What is taken from a text that starts with characters of one kind. -/
theorem span_append {α : Type*} {p : α → Bool} {as bs : List α} (has : ∀ a ∈ as, p a = true)
    (hbs : ∀ b ∈ bs.head?, p b = false) :
    (as ++ bs).takeWhile p = as ∧ (as ++ bs).dropWhile p = bs := by
  rw [List.takeWhile_append_of_pos has, List.dropWhile_append_of_pos has]
  cases bs with
  | nil => simp
  | cons b bs => simp [hbs b rfl]

/-- White space, a sign and digits. -/
structure Numeral where
  space : List Char
  sign : List Char
  digits : List Char
  isspace : ∀ c ∈ space, isspace c = true
  isSign : sign = [] ∨ sign = ['+'] ∨ sign = ['-']
  isDigit : ∀ c ∈ digits, c.isDigit = true
  nonempty : digits ≠ []

namespace Numeral

def text (n : Numeral) : List Char := n.space ++ (n.sign ++ n.digits)

def value (n : Numeral) : ℤ :=
  if n.sign = ['-'] then -digitsValue 10 n.digits else digitsValue 10 n.digits

theorem head_isDigit (n : Numeral) (rest : List Char) :
    ∀ c ∈ (n.digits ++ rest).head?, c.isDigit = true := by
  obtain ⟨d, ds, hds⟩ := List.exists_cons_of_ne_nil n.nonempty
  intro c hc
  rw [hds] at hc
  obtain rfl : d = c := Option.some.inj hc
  exact n.isDigit d (hds ▸ List.mem_cons_self)

/-- `strtol()` reads a numeral up to what is not a digit. -/
theorem strtol_append (n : Numeral) {rest : List Char}
    (hrest : ∀ c ∈ rest.head?, c.isDigit = false) :
    strtol (n.text ++ rest) 10 = clampLong n.value rest := by
  have hhead := n.head_isDigit rest
  have hspace : (n.text ++ rest).dropWhile Lib.isspace = n.sign ++ (n.digits ++ rest) := by
    rw [text, List.append_assoc, List.append_assoc]
    exact (span_append n.isspace
      (head_not_isspace n.isSign fun c hc => not_isspace_of_isDigit (hhead c hc))).2
  have hsign := signOf_append n.isSign fun c hc => ne_sign_of_isDigit (hhead c hc)
  have hall : ∀ c ∈ n.digits, isDigitOf 10 c = true :=
    fun c hc => isDigitOf_ten_of_isDigit (n.isDigit c hc)
  obtain ⟨htake, hdrop⟩ := span_append hall fun c hc => (isDigitOf_ten c).trans (hrest c hc)
  simp only [strtol, hspace, hsign, baseOf_ten, htake, hdrop, n.nonempty, if_false, value,
    decide_eq_true_eq]

theorem strtol_text (n : Numeral) : strtol n.text 10 = clampLong n.value [] := by
  have hnil : ∀ c ∈ ([] : List Char).head?, c.isDigit = false := by simp
  have h := n.strtol_append hnil
  rwa [List.append_nil] at h

theorem text_ne_nil (n : Numeral) : n.text ≠ [] := by
  intro hnil
  exact n.nonempty (List.append_eq_nil_iff.mp (List.append_eq_nil_iff.mp hnil).2).2

end Numeral

theorem strtol_digits {ds rest : List Char} (hds : ds ≠ []) (hall : ∀ c ∈ ds, c.isDigit = true)
    (hrest : ∀ c ∈ rest.head?, c.isDigit = false) :
    strtol (ds ++ rest) 10 = clampLong (digitsValue 10 ds) rest :=
  Numeral.strtol_append ⟨[], [], ds, by simp, .inl rfl, hall, hds⟩ hrest

/-- A text as the characters of one kind that it starts with, and the rest. -/
theorem exists_span {α : Type*} (p : α → Bool) (s : List α) :
    ∃ as bs, s = as ++ bs ∧ (∀ a ∈ as, p a = true) ∧ ∀ b ∈ bs.head?, p b = false := by
  refine ⟨s.takeWhile p, s.dropWhile p, (List.takeWhile_append_dropWhile ..).symm, ?_, ?_⟩
  · intro a ha
    exact List.all_eq_true.mp List.all_takeWhile a ha
  · intro b hb
    have hnot := List.head?_dropWhile_not p s
    rw [Option.mem_def.mp hb] at hnot
    exact hnot

@[simp] theorem clampLong_rest (v : ℤ) (rest : List Char) : (clampLong v rest).rest = rest := by
  unfold clampLong
  split_ifs <;> rfl

theorem clampLong_of_fits {v : ℤ} (h : LONG_MIN ≤ v ∧ v ≤ LONG_MAX) (rest : List Char) :
    clampLong v rest = ⟨v, rest, false⟩ := by
  rw [clampLong, if_neg h.2.not_gt, if_neg h.1.not_gt]

theorem fits_of_erange {v : ℤ} {rest : List Char} (h : (clampLong v rest).erange = false) :
    LONG_MIN ≤ v ∧ v ≤ LONG_MAX := by
  unfold clampLong at h
  split_ifs at h with hmax hmin
  exact ⟨not_lt.mp hmin, not_lt.mp hmax⟩

theorem exists_sign (t : List Char) :
    ∃ sign, (sign = [] ∨ sign = ['+'] ∨ sign = ['-']) ∧ t = sign ++ (signOf t).2 := by
  unfold signOf
  split
  · exact ⟨['-'], .inr (.inr rfl), rfl⟩
  · exact ⟨['+'], .inr (.inl rfl), rfl⟩
  · exact ⟨[], .inl rfl, rfl⟩

/-- `strtol()` reads a text to its end if and only if the text is a numeral or empty. -/
theorem strtol_rest_eq_nil_iff {s : List Char} (hs : s ≠ []) :
    (strtol s 10).rest = [] ↔ ∃ n : Numeral, n.text = s := by
  constructor
  · intro hrest
    simp only [strtol, baseOf_ten] at hrest
    by_cases hdigits : (signOf (s.dropWhile isspace)).2.takeWhile (isDigitOf 10) = []
    · rw [if_pos hdigits] at hrest
      exact absurd hrest hs
    · rw [if_neg hdigits, clampLong_rest, List.dropWhile_eq_nil_iff] at hrest
      obtain ⟨sign, hsign, ht⟩ := exists_sign (s.dropWhile isspace)
      refine ⟨⟨s.takeWhile isspace, sign, (signOf (s.dropWhile isspace)).2,
        List.all_eq_true.mp List.all_takeWhile, hsign, ?_, ?_⟩, ?_⟩
      · intro c hc
        rw [← isDigitOf_ten]
        exact hrest c hc
      · intro hnil
        rw [hnil] at hdigits
        exact hdigits rfl
      · rw [Numeral.text, ← ht, List.takeWhile_append_dropWhile]
  · rintro ⟨n, rfl⟩
    rw [n.strtol_text, clampLong_rest]

/-! ## Reading back a decimal -/

/-- A decimal behind white space. -/
def Numeral.ofInt (space : List Char) (h : ∀ c ∈ space, Lib.isspace c = true) (z : ℤ) :
    Numeral where
  space := space
  sign := if z < 0 then ['-'] else []
  digits := Nat.toDigits 10 z.natAbs
  isspace := h
  isSign := by split_ifs <;> simp
  isDigit := isDigit_of_mem_toDigits_ten
  nonempty := Nat.toDigits_ne_nil

section OfInt

variable {space : List Char} (h : ∀ c ∈ space, Lib.isspace c = true) (z : ℤ)

theorem Numeral.text_ofInt : (Numeral.ofInt space h z).text = space ++ decimal z := by
  unfold Numeral.text Numeral.ofInt decimal
  split_ifs <;> rfl

theorem Numeral.value_ofInt : (Numeral.ofInt space h z).value = z := by
  have hsign : (Numeral.ofInt space h z).sign = ['-'] ↔ z < 0 := by
    show (if z < 0 then ['-'] else []) = ['-'] ↔ z < 0
    split_ifs with hz <;> simp [hz]
  have hdigits : digitsValue 10 (Numeral.ofInt space h z).digits = z.natAbs :=
    digitsValue_toDigits _
  rw [Numeral.value, hdigits]
  simp only [hsign]
  split_ifs <;> omega

end OfInt

theorem strtol_space_decimal {space : List Char} (h : ∀ c ∈ space, isspace c = true) {z : ℤ}
    (hmin : LONG_MIN ≤ z) (hmax : z ≤ LONG_MAX) {rest : List Char}
    (hrest : ∀ c ∈ rest.head?, c.isDigit = false) :
    strtol (space ++ decimal z ++ rest) 10 = ⟨z, rest, false⟩ := by
  rw [← Numeral.text_ofInt h, Numeral.strtol_append _ hrest, Numeral.value_ofInt,
    clampLong_of_fits ⟨hmin, hmax⟩]

theorem strtol_decimal {z : ℤ} (hmin : LONG_MIN ≤ z) (hmax : z ≤ LONG_MAX) {rest : List Char}
    (hrest : ∀ c ∈ rest.head?, c.isDigit = false) :
    strtol (decimal z ++ rest) 10 = ⟨z, rest, false⟩ :=
  strtol_space_decimal (List.forall_mem_nil _) hmin hmax hrest

theorem atoi_decimal {z : ℤ} (hmin : INT_MIN ≤ z) (hmax : z ≤ INT_MAX) {rest : List Char}
    (hrest : ∀ c ∈ rest.head?, c.isDigit = false) : atoi (decimal z ++ rest) = z := by
  unfold INT_MIN at hmin
  unfold INT_MAX at hmax
  rw [atoi, strtol_decimal (by unfold LONG_MIN; omega) (by unfold LONG_MAX; omega) hrest]
  exact Int.bmod_eq_of_le (by dsimp only; omega) (by dsimp only; omega)

theorem length_decimal_le {z : ℤ} (hmin : INT_MIN ≤ z) (hmax : z ≤ INT_MAX) :
    (decimal z).length ≤ 11 := by
  unfold INT_MIN at hmin
  unfold INT_MAX at hmax
  have hdigits : (Nat.toDigits 10 z.natAbs).length ≤ 10 :=
    Nat.toDigits_length 10 z.natAbs 10 (by decide) (by omega)
  unfold decimal
  split <;> simp <;> omega

/-- A decimal is made of digits and a minus sign. -/
theorem mem_decimal {z : ℤ} {c : Char} (h : c ∈ decimal z) : c = '-' ∨ c.isDigit = true := by
  unfold decimal at h
  split at h
  · rcases List.mem_cons.mp h with rfl | h
    · exact .inl rfl
    · exact .inr (isDigit_of_mem_toDigits_ten c h)
  · exact .inr (isDigit_of_mem_toDigits_ten c h)

end Tlpi.Lib
