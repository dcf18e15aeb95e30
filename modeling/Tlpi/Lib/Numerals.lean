import Tlpi.Lib.Strtol

/-! The numerals that `strtol()` accepts in a base, where the base 0 leaves it to the prefix. -/

namespace Tlpi.Lib

/-- The digits behind an optional prefix have the base `b`. -/
def Prefixed (base : ℕ) (pre digits : List Char) (b : ℕ) : Prop :=
  pre = [] ∧ b = (if base ≠ 0 then base else if digits.head? = some '0' then 8 else 10) ∨
    (base = 0 ∨ base = 16) ∧ (pre = ['0', 'x'] ∨ pre = ['0', 'X']) ∧ b = 16

/-- The whole text is white space, a sign, a prefix and digits, of which only the digits have to be
there, and denotes the number `v`. -/
def Spells (base : ℕ) (s : List Char) (v : ℤ) : Prop :=
  ∃ space sign pre digits b, s = space ++ (sign ++ (pre ++ digits)) ∧
    (∀ c ∈ space, isspace c = true) ∧ (sign = [] ∨ sign = ['+'] ∨ sign = ['-']) ∧
    Prefixed base pre digits b ∧ digits ≠ [] ∧ (∀ c ∈ digits, isDigitOf b c = true) ∧
    v = if sign = ['-'] then -(digitsValue b digits : ℤ) else digitsValue b digits

/-! ## The characters of a numeral -/

theorem le_toNat_of_digitValue_lt {c : Char} (h : digitValue c < 36) : 48 ≤ c.toNat := by
  unfold digitValue at h
  split_ifs at h with hdigit hlower hupper
  · simp only [Char.isDigit, Bool.and_eq_true, decide_eq_true_eq] at hdigit
    exact hdigit.1
  · have hge : c.val ≥ 'a'.val := of_decide_eq_true (Bool.and_eq_true_iff.mp hlower).1
    exact le_trans (by decide) (UInt32.le_iff_toNat_le.mp hge)
  · have hge : c.val ≥ 'A'.val := (of_decide_eq_true hupper).1
    exact le_trans (by decide) (UInt32.le_iff_toNat_le.mp hge)
  · omega

/-- A digit is neither white space nor a sign. -/
theorem isDigitOf_head {b : ℕ} (hb : b ≤ 36) {c : Char} (h : isDigitOf b c = true) :
    isspace c = false ∧ c ≠ '+' ∧ c ≠ '-' := by
  have hlt : digitValue c < b := of_decide_eq_true h
  have hge := le_toNat_of_digitValue_lt (hlt.trans_le hb)
  have hne : ∀ d : Char, d.toNat < 48 → c ≠ d := by
    rintro d hd rfl
    omega
  refine ⟨?_, hne '+' (by decide), hne '-' (by decide)⟩
  unfold isspace
  rw [beq_eq_false_iff_ne.mpr (hne ' ' (by decide)), Bool.false_or, Bool.and_eq_false_iff]
  exact .inr (decide_eq_false (by omega))

/-! ## The prefix -/

theorem baseOf_spec (base : ℕ) (t : List Char) :
    ∃ pre, t = pre ++ (baseOf base t).2 ∧
      Prefixed base pre (baseOf base t).2 (baseOf base t).1 := by
  unfold baseOf
  split
  · next x d u =>
    by_cases hprefix : (base = 0 ∨ base = 16) ∧ (x = 'x' ∨ x = 'X') ∧ isDigitOf 16 d = true
    · rw [if_pos hprefix]
      obtain ⟨hbase, hx, -⟩ := hprefix
      refine ⟨['0', x], rfl, .inr ⟨hbase, ?_, rfl⟩⟩
      rcases hx with rfl | rfl
      · exact .inl rfl
      · exact .inr rfl
    · rw [if_neg hprefix]
      exact ⟨[], rfl, .inl ⟨rfl, by by_cases h : base = 0 <;> simp [h]⟩⟩
  · exact ⟨[], rfl, .inl ⟨rfl, by by_cases h : base = 0 <;> simp [h]⟩⟩
  · next hlong hshort =>
    have hhead : t.head? ≠ some '0' := by
      intro hhead
      obtain ⟨u, hu⟩ := List.head?_eq_some_iff.mp hhead
      exact hshort u hu
    exact ⟨[], rfl, .inl ⟨rfl, by by_cases h : base = 0 <;> simp [h, hhead]⟩⟩

/-- `x` is not a digit in a base in which it could belong to a prefix. -/
theorem baseOf_digits {base b : ℕ} {digits : List Char}
    (hb : b = if base ≠ 0 then base else if digits.head? = some '0' then 8 else 10)
    (hall : ∀ c ∈ digits, isDigitOf b c = true) : baseOf base digits = (b, digits) := by
  unfold baseOf
  split
  · next x d u =>
    have hle : base = 0 ∨ base = 16 → b ≤ 16 := by
      rintro (rfl | rfl)
      · rw [hb, if_neg (by simp), List.head?_cons, if_pos rfl]
        decide
      · rw [hb, if_pos (by simp)]
    have hx : digitValue x < b := of_decide_eq_true (hall x (by simp))
    rw [if_neg]
    · rw [hb]
      by_cases h : base = 0 <;> simp [h]
    · rintro ⟨hbase, rfl | rfl, -⟩
      · have hvalue : digitValue 'x' = 33 := rfl
        have := hle hbase
        omega
      · have hvalue : digitValue 'X' = 33 := rfl
        have := hle hbase
        omega
  · rw [hb]
    by_cases h : base = 0 <;> simp [h]
  · next hlong hshort =>
    have hhead : digits.head? ≠ some '0' := by
      intro hhead
      obtain ⟨u, hu⟩ := List.head?_eq_some_iff.mp hhead
      exact hshort u hu
    rw [hb]
    by_cases h : base = 0 <;> simp [h, hhead]

theorem baseOf_append {base b : ℕ} {pre digits : List Char} (h : Prefixed base pre digits b)
    (hne : digits ≠ []) (hall : ∀ c ∈ digits, isDigitOf b c = true) :
    baseOf base (pre ++ digits) = (b, digits) := by
  obtain ⟨rfl, hb⟩ | ⟨hbase, hpre, rfl⟩ := h
  · exact baseOf_digits hb hall
  · obtain ⟨d, u, rfl⟩ := List.exists_cons_of_ne_nil hne
    have hd : isDigitOf 16 d = true := hall d List.mem_cons_self
    rcases hpre with rfl | rfl
    · exact if_pos ⟨hbase, .inl rfl, hd⟩
    · exact if_pos ⟨hbase, .inr rfl, hd⟩

/-! ## Whole numerals -/

theorem Prefixed.head {base b : ℕ} {pre digits : List Char} (h : Prefixed base pre digits b)
    (hbase : base ≤ 36) (hall : ∀ c ∈ digits, isDigitOf b c = true) :
    ∀ c ∈ (pre ++ digits).head?, isspace c = false ∧ c ≠ '+' ∧ c ≠ '-' := by
  intro c hc
  obtain ⟨rfl, hb⟩ | ⟨-, rfl | rfl, -⟩ := h
  · have hle : b ≤ 36 := by
      rw [hb]
      split_ifs <;> omega
    exact isDigitOf_head hle (hall c (List.mem_of_mem_head? hc))
  · obtain rfl : '0' = c := Option.some.inj hc
    decide
  · obtain rfl : '0' = c := Option.some.inj hc
    decide

/-- `strtol()` reads a numeral to its end. -/
theorem Spells.strtol_eq {base : ℕ} {s : List Char} {v : ℤ} (h : Spells base s v)
    (hbase : base ≤ 36) : strtol s base = clampLong v [] := by
  obtain ⟨space, sign, pre, digits, b, rfl, hspace, hsign, hpre, hne, hall, rfl⟩ := h
  have hhead := hpre.head hbase hall
  have hdrop : (space ++ (sign ++ (pre ++ digits))).dropWhile isspace =
      sign ++ (pre ++ digits) := by
    exact (span_append hspace (head_not_isspace hsign fun c hc => (hhead c hc).1)).2
  have hnil : ∀ c ∈ ([] : List Char).head?, isDigitOf b c = false := by simp
  have hdigits := span_append hall hnil
  rw [List.append_nil] at hdigits
  simp only [strtol, hdrop, signOf_append hsign fun c hc => (hhead c hc).2,
    baseOf_append hpre hne hall, hdigits, hne, if_false, decide_eq_true_eq]

theorem exists_spells {base : ℕ} {s : List Char} (hs : s ≠ []) (h : (strtol s base).rest = []) :
    ∃ v, Spells base s v := by
  obtain ⟨sign, hsign, ht⟩ := exists_sign (s.dropWhile isspace)
  obtain ⟨pre, hu, hpre⟩ := baseOf_spec base (signOf (s.dropWhile isspace)).2
  simp only [strtol] at h
  rw [hu] at ht
  generalize baseOf base (signOf (s.dropWhile isspace)).2 = bu at h hpre ht
  by_cases hdigits : bu.2.takeWhile (isDigitOf bu.1) = []
  · rw [if_pos hdigits] at h
    exact absurd h hs
  · rw [if_neg hdigits, clampLong_rest, List.dropWhile_eq_nil_iff] at h
    refine ⟨_, s.takeWhile isspace, sign, pre, bu.2, bu.1, ?_,
      List.all_eq_true.mp List.all_takeWhile, hsign, hpre, ?_, h, rfl⟩
    · rw [← ht, List.takeWhile_append_dropWhile]
    · intro hnil
      rw [hnil] at hdigits
      exact hdigits rfl

theorem Spells.ne_nil {base : ℕ} {s : List Char} {v : ℤ} (h : Spells base s v) : s ≠ [] := by
  obtain ⟨space, sign, pre, digits, b, rfl, -, -, -, hne, -⟩ := h
  simp [hne]

end Tlpi.Lib
