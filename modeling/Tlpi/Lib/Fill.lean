import Mathlib.Tactic

/-! Filling of lines with words: each word goes to the current line if there is room for it behind a
blank, and to a new line otherwise. The first line may have less room than the others. -/

namespace Tlpi.Lib

variable {β : Type*}

/-- Words with one blank between them. -/
def joined (blank : β) (line : List (List β)) : List β := [blank].intercalate line

/-- Lines of words, all but the first of them behind a newline and the indentation. -/
def laidOut (blank newline : β) (indent : List β) : List (List (List β)) → List β
  | [] => []
  | line :: lines =>
    joined blank line ++ lines.flatMap fun line => newline :: indent ++ joined blank line

/-- The loop over the words, with the text and the column that it has reached. -/
def fillStep (blank newline : β) (width : ℤ) (indent : List β) (s : List β × ℤ) (word : List β) :
    List β × ℤ :=
  if s.2 + word.length + 1 > width then (s.1 ++ newline :: indent ++ word, word.length)
  else (s.1 ++ blank :: word, s.2 + (1 + word.length))

/-- The lines of the loop, from a line that is not empty. -/
def fillLines (width col : ℤ) (line : List (List β)) : List (List β) → List (List (List β))
  | [] => [line]
  | word :: words =>
    if col + word.length + 1 > width then line :: fillLines width word.length [word] words
    else fillLines width (col + (1 + word.length)) (line ++ [word]) words

variable {blank newline : β} {indent : List β} {width col : ℤ} {line : List (List β)}
  {words : List (List β)} {lines : List (List (List β))}

/-! ## Texts -/

theorem joined_singleton (word : List β) : joined blank [word] = word := by
  simp [joined]

theorem joined_cons (word : List β) (hline : line ≠ []) :
    joined blank (word :: line) = word ++ blank :: joined blank line := by
  obtain ⟨word', line, rfl⟩ := List.exists_cons_of_ne_nil hline
  simp [joined, List.intercalate_cons_cons]

theorem joined_append_singleton (hline : line ≠ []) (word : List β) :
    joined blank (line ++ [word]) = joined blank line ++ blank :: word := by
  induction line with
  | nil => exact absurd rfl hline
  | cons word' line ih =>
    by_cases hnil : line = []
    · subst hnil
      rw [List.singleton_append, joined_cons _ (List.cons_ne_nil _ _), joined_singleton,
        joined_singleton]
    · rw [List.cons_append, joined_cons _ (List.append_ne_nil_of_left_ne_nil hnil _), ih hnil,
        joined_cons _ hnil, List.append_assoc, List.cons_append]

theorem notMem_joined {b : β} (hb : b ≠ blank) (h : ∀ word ∈ line, b ∉ word) :
    b ∉ joined blank line := by
  induction line with
  | nil => exact List.not_mem_nil
  | cons word line ih =>
    obtain ⟨hword, hline⟩ := List.forall_mem_cons.mp h
    by_cases hnil : line = []
    · subst hnil
      rwa [joined_singleton]
    · rw [joined_cons word hnil, List.mem_append, List.mem_cons, not_or, not_or]
      exact ⟨hword, hb, ih hline⟩

theorem laidOut_cons (hlines : lines ≠ []) :
    laidOut blank newline indent (line :: lines) =
      joined blank line ++ newline :: indent ++ laidOut blank newline indent lines := by
  obtain ⟨line', lines, rfl⟩ := List.exists_cons_of_ne_nil hlines
  simp [laidOut]

theorem laidOut_eq_intercalate (hlines : lines ≠ []) :
    indent ++ laidOut blank newline indent lines =
      [newline].intercalate (lines.map fun line => indent ++ joined blank line) := by
  induction lines with
  | nil => exact absurd rfl hlines
  | cons line lines ih =>
    by_cases hnil : lines = []
    · subst hnil
      simp [laidOut]
    · have hrest := ih hnil
      obtain ⟨next, rest, rfl⟩ := List.exists_cons_of_ne_nil hnil
      rw [List.map_cons] at hrest
      rw [laidOut_cons hnil, List.map_cons, List.map_cons, List.intercalate_cons_cons, ← hrest]
      simp only [List.append_assoc, List.cons_append, List.nil_append]

theorem fillLines_eq_cons :
    ∃ more lines, fillLines width col line words = (line ++ more) :: lines := by
  induction words generalizing col line with
  | nil => exact ⟨[], [], by rw [List.append_nil, fillLines]⟩
  | cons word words ih =>
    rw [fillLines]
    split_ifs
    · exact ⟨[], _, by rw [List.append_nil]⟩
    · obtain ⟨more, lines, h⟩ := @ih (col + (1 + word.length)) (line ++ [word])
      exact ⟨word :: more, lines, by rw [h, List.append_assoc, List.singleton_append]⟩

theorem fillLines_ne_nil : fillLines width col line words ≠ [] := by
  obtain ⟨more, lines, h⟩ := @fillLines_eq_cons β width col line words
  rw [h]
  exact List.cons_ne_nil _ _

theorem flatten_fillLines : (fillLines width col line words).flatten = line ++ words := by
  induction words generalizing col line with
  | nil => simp [fillLines]
  | cons word words ih =>
    rw [fillLines]
    split_ifs
    · rw [List.flatten_cons, ih, List.singleton_append]
    · rw [ih, List.append_assoc, List.singleton_append]

theorem nil_notMem_fillLines (hline : line ≠ []) : [] ∉ fillLines width col line words := by
  induction words generalizing col line with
  | nil =>
    rw [fillLines, List.mem_singleton]
    exact hline.symm
  | cons word words ih =>
    rw [fillLines]
    split_ifs
    · rw [List.mem_cons, not_or]
      exact ⟨hline.symm, ih (List.cons_ne_nil _ _)⟩
    · exact ih (List.append_ne_nil_of_left_ne_nil hline _)

/-- The text of the loop is that of its lines. -/
theorem foldl_fillStep (hline : line ≠ []) (text : List β) :
    (words.foldl (fillStep blank newline width indent) (text ++ joined blank line, col)).1 =
      text ++ laidOut blank newline indent (fillLines width col line words) := by
  induction words generalizing text col line with
  | nil => simp [fillLines, laidOut]
  | cons word words ih =>
    rw [List.foldl_cons, fillLines, fillStep]
    split_ifs
    · have hnext := @ih word.length [word] (List.cons_ne_nil _ _)
        (text ++ joined blank line ++ newline :: indent)
      rw [joined_singleton] at hnext
      rw [hnext, laidOut_cons fillLines_ne_nil]
      simp only [List.append_assoc, List.cons_append]
    · have hnext := @ih (col + (1 + word.length)) (line ++ [word])
        (List.append_ne_nil_of_left_ne_nil hline _) text
      rw [joined_append_singleton hline, ← List.append_assoc] at hnext
      exact hnext

/-! ## The lines of a text -/

/-- The first word stands alone on its line, or it has the rest of the line behind it. -/
theorem cut_cons {word : List β} (hnil : [] ∉ lines) (hwords : lines.flatten = word :: words) :
    (∃ rest, lines = [word] :: rest ∧ [] ∉ rest ∧ rest.flatten = words) ∨
    ∃ line rest, lines = (word :: line) :: rest ∧ line ≠ [] ∧ [] ∉ rest ∧
      line ++ rest.flatten = words := by
  rcases lines with _ | ⟨_ | ⟨word', line⟩, rest⟩
  · cases hwords
  · exact absurd List.mem_cons_self hnil
  · rw [List.flatten_cons, List.cons_append] at hwords
    obtain ⟨rfl, hrest⟩ := List.cons.inj hwords
    have hnil' : [] ∉ rest := fun h => hnil (List.mem_cons_of_mem _ h)
    by_cases hline : line = []
    · subst hline
      exact .inl ⟨rest, rfl, hnil', hrest⟩
    · exact .inr ⟨line, rest, rfl, hline, hnil', hrest⟩

theorem eq_nil_of_flatten_eq_nil (hnil : [] ∉ lines) (h : lines.flatten = []) : lines = [] := by
  cases lines with
  | nil => rfl
  | cons line lines =>
    have hline : line = [] := List.flatten_eq_nil_iff.mp h line List.mem_cons_self
    exact absurd (hline ▸ List.mem_cons_self) hnil

theorem laidOut_cons_word (word : List β) (hline : line ≠ []) :
    laidOut blank newline indent ((word :: line) :: lines) =
      word ++ blank :: laidOut blank newline indent (line :: lines) := by
  rw [laidOut, joined_cons word hline, laidOut]
  simp only [List.append_assoc, List.cons_append]

/-- The line of the first word ends with it. -/
theorem laidOut_cons_singleton (word : List β) (hlines : lines ≠ []) :
    laidOut blank newline indent ([word] :: lines) =
      word ++ newline :: (indent ++ laidOut blank newline indent lines) := by
  rw [laidOut_cons hlines, joined_singleton, List.append_assoc, List.cons_append]

theorem laidOut_ne (hsep : blank ≠ newline) {word : List β} {rest rest' : List (List (List β))}
    (hline : line ≠ []) (hwords : rest.flatten = line ++ rest'.flatten) :
    laidOut blank newline indent ([word] :: rest) ≠
      laidOut blank newline indent ((word :: line) :: rest') := by
  have hrest : rest ≠ [] := by
    rintro rfl
    rw [List.flatten_nil] at hwords
    exact hline (List.append_eq_nil_iff.mp hwords.symm).1
  rw [laidOut_cons_singleton word hrest, laidOut_cons_word word hline]
  intro htext
  exact hsep (List.cons.inj (List.append_cancel_left htext)).1.symm

/-- A text is that of one list of lines with these words only. -/
theorem laidOut_injective (hsep : blank ≠ newline) {lines' : List (List (List β))}
    (hnil : [] ∉ lines) (hnil' : [] ∉ lines') (hwords : lines.flatten = words)
    (hwords' : lines'.flatten = words)
    (htext : laidOut blank newline indent lines = laidOut blank newline indent lines') :
    lines = lines' := by
  -- on the words: the character behind the first word tells whether its line goes on
  induction words generalizing lines lines' with
  | nil => rw [eq_nil_of_flatten_eq_nil hnil hwords, eq_nil_of_flatten_eq_nil hnil' hwords']
  | cons word words ih =>
    rcases cut_cons hnil hwords with
      ⟨rest, rfl, hrest, hflat⟩ | ⟨line, rest, rfl, hline, hrest, hflat⟩
    · rcases cut_cons hnil' hwords' with
        ⟨rest', rfl, hrest', hflat'⟩ | ⟨line', rest', rfl, hline', hrest', hflat'⟩
      · by_cases hempty : rest = []
        · subst hempty
          rw [eq_nil_of_flatten_eq_nil hrest' (hflat'.trans hflat.symm)]
        · have hempty' : rest' ≠ [] := by
            rintro rfl
            exact hempty (eq_nil_of_flatten_eq_nil hrest (hflat.trans hflat'.symm))
          rw [laidOut_cons_singleton word hempty, laidOut_cons_singleton word hempty'] at htext
          have htail := List.append_cancel_left (List.cons.inj (List.append_cancel_left htext)).2
          rw [ih hrest hrest' hflat hflat' htail]
      · exact absurd htext (laidOut_ne hsep hline' (hflat.trans hflat'.symm))
    · rcases cut_cons hnil' hwords' with
        ⟨rest', rfl, hrest', hflat'⟩ | ⟨line', rest', rfl, hline', hrest', hflat'⟩
      · exact absurd htext.symm (laidOut_ne hsep hline (hflat'.trans hflat.symm))
      · rw [laidOut_cons_word word hline, laidOut_cons_word word hline'] at htext
        have htail := (List.cons.inj (List.append_cancel_left htext)).2
        have hcut : [] ∉ line :: rest ∧ (line :: rest).flatten = words :=
          ⟨List.not_mem_cons_of_ne_of_not_mem hline.symm hrest, hflat⟩
        have hcut' : [] ∉ line' :: rest' ∧ (line' :: rest').flatten = words :=
          ⟨List.not_mem_cons_of_ne_of_not_mem hline'.symm hrest', hflat'⟩
        obtain ⟨rfl, rfl⟩ := List.cons.inj (ih hcut.1 hcut'.1 hcut.2 hcut'.2 htail)
        rfl

/-! ## Filled lines -/

/-- Every line is as wide as it may be or holds one word, and the first word of the next line would
have been too much for it. -/
structure Filled (blank : β) (width : ℤ) (lines : List (List (List β))) : Prop where
  fits : ∀ line ∈ lines, (joined blank line).length ≤ width ∨ line.length = 1
  full : lines.IsChain fun line next =>
    ∀ word ∈ next.head?, width < (joined blank line).length + 1 + word.length

theorem length_joined_append_singleton (hline : line ≠ []) (word : List β) :
    ((joined blank (line ++ [word])).length : ℤ) =
      (joined blank line).length + (1 + word.length) := by
  rw [joined_append_singleton hline, List.length_append, List.length_cons]
  push_cast
  ring

theorem filled_singleton (hline : (joined blank line).length ≤ width ∨ line.length = 1) :
    Filled blank width [line] where
  fits := by simpa using hline
  full := List.isChain_singleton _

theorem filled_cons_fillLines {word : List β} :
    Filled blank width (line :: fillLines width col [word] words) ↔
      ((joined blank line).length ≤ width ∨ line.length = 1) ∧
      width < (joined blank line).length + 1 + word.length ∧
      Filled blank width (fillLines width col [word] words) := by
  obtain ⟨more, lines, h⟩ := @fillLines_eq_cons β width col [word] words
  rw [h]
  constructor
  · rintro ⟨hfits, hfull⟩
    obtain ⟨hword, hrest⟩ := List.isChain_cons_cons.mp hfull
    obtain ⟨hline, hlines⟩ := List.forall_mem_cons.mp hfits
    exact ⟨hline, hword word rfl, hlines, hrest⟩
  · rintro ⟨hline, hword, hfits, hfull⟩
    refine ⟨List.forall_mem_cons.mpr ⟨hline, hfits⟩, List.isChain_cons_cons.mpr ⟨?_, hfull⟩⟩
    rintro _ ⟨⟩
    exact hword

/-- The column is the length of the line. -/
theorem filled_fillLines (hne : line ≠ [])
    (hline : (joined blank line).length ≤ width ∨ line.length = 1) :
    Filled blank width (fillLines width (joined blank line).length line words) := by
  induction words generalizing line with
  | nil => exact filled_singleton hline
  | cons word words ih =>
    rw [fillLines]
    split_ifs with hover
    · have hnext := @ih [word] (List.cons_ne_nil _ _) (.inr rfl)
      rw [joined_singleton] at hnext
      rw [filled_cons_fillLines]
      exact ⟨hline, by omega, hnext⟩
    · have hlength := @length_joined_append_singleton β blank line hne word
      rw [← hlength]
      exact ih (List.append_ne_nil_of_left_ne_nil hne _) (.inl (by omega))

theorem length_joined_le_append (hne : line ≠ []) (words : List (List β)) :
    (joined blank line).length ≤ (joined blank (line ++ words)).length := by
  induction words using List.reverseRecOn with
  | nil => rw [List.append_nil]
  | append_singleton words word ih =>
    rw [← List.append_assoc, joined_append_singleton (List.append_ne_nil_of_left_ne_nil hne _),
      List.length_append]
    omega

/-- The column of the first line is too large by `extra`: the line is not filled if it is broken
where it would still have had room for a word. -/
theorem filled_fillLines_extra_iff (extra : ℕ) (hne : line ≠ [])
    (hline : (joined blank line).length ≤ width ∨ line.length = 1) :
    Filled blank width (fillLines width (extra + (joined blank line).length) line words) ↔
      ∀ k, 0 < k → k ≤ words.length →
        ¬ (width - extra < (joined blank (line ++ words.take k)).length ∧
          (joined blank (line ++ words.take k)).length ≤ width) := by
  induction words generalizing line with
  | nil =>
    refine iff_of_true (filled_singleton hline) ?_
    intro k hk hle
    exact absurd hle (by rw [List.length_nil]; omega)
  | cons word words ih =>
    have hlength := @length_joined_append_singleton β blank line hne word
    rw [fillLines]
    split_ifs with hover
    · have hrest : Filled blank width (fillLines width word.length [word] words) := by
        have hnext := @filled_fillLines β blank width [word] words (List.cons_ne_nil _ _) (.inr rfl)
        rwa [joined_singleton] at hnext
      rw [filled_cons_fillLines, and_iff_right hline, and_iff_left hrest]
      constructor
      · intro hword k hk hle
        obtain ⟨k, rfl⟩ := Nat.exists_eq_succ_of_ne_zero hk.ne'
        have hle := @length_joined_le_append β blank (line ++ [word])
          (List.append_ne_nil_of_left_ne_nil hne _) (words.take k)
        rw [List.append_assoc, List.singleton_append] at hle
        rw [Nat.succ_eq_add_one, List.take_succ_cons]
        omega
      · intro h
        have hfirst := h 1 Nat.one_pos (by rw [List.length_cons]; omega)
        rw [List.take_succ_cons, List.take_zero] at hfirst
        omega
    · rw [add_assoc, ← hlength, ih (List.append_ne_nil_of_left_ne_nil hne _) (.inl (by omega))]
      constructor
      · intro h k hk hle
        obtain ⟨k, rfl⟩ := Nat.exists_eq_succ_of_ne_zero hk.ne'
        rw [Nat.succ_eq_add_one, List.take_succ_cons]
        rcases Nat.eq_zero_or_pos k with rfl | hk
        · rw [List.take_zero]
          omega
        · have hnext := h k hk (by rw [List.length_cons] at hle; omega)
          rwa [List.append_assoc, List.singleton_append] at hnext
      · intro h k hk hle
        have hnext := h (k + 1) (Nat.succ_pos k) (by rw [List.length_cons]; omega)
        rwa [List.take_succ_cons, List.append_cons] at hnext

end Tlpi.Lib
