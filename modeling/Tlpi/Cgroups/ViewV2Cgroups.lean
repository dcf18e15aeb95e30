import Tlpi.Lib.Fields
import Tlpi.Lib.Fill

/-! `wrapText()` of `cgroups/view_v2_cgroups.go`, which breaks the lists of processes and threads
into lines behind a text such as `PIDs:`. -/

namespace Tlpi.Cgroups
open Lib

/-- `pfx` is the argument `prefix`. -/
def wrapText (text pfx : Bytes) (width : ℤ) (indent : Bytes) : Bytes :=
  match fields text with
  | [] => []
  | first :: words =>
    (words.foldl
      (fillStep blank newline (width - pfx.length) (indent ++ List.replicate pfx.length blank))
      (indent ++ pfx ++ first, pfx.length + first.length)).1

/-- The first line is `indent`, the prefix and words, and each later one `indent`, blanks for the
prefix and words. -/
def pfxText (pfx indent : Bytes) (first : List Bytes) (rest : List (List Bytes)) : Bytes :=
  indent ++ pfx ++ joined blank first ++
    rest.flatMap fun line =>
      newline :: (indent ++ List.replicate pfx.length blank) ++ joined blank line

theorem pfxText_eq (pfx indent : Bytes) (first : List Bytes) (rest : List (List Bytes)) :
    pfxText pfx indent first rest = indent ++ pfx ++
      laidOut blank newline (indent ++ List.replicate pfx.length blank) (first :: rest) := by
  rw [pfxText, laidOut, List.append_assoc (indent ++ pfx)]

theorem wrapText_eq {text first : Bytes} {words : List Bytes} (h : fields text = first :: words)
    (pfx : Bytes) (width : ℤ) (indent : Bytes) :
    wrapText text pfx width indent = indent ++ pfx ++
      laidOut blank newline (indent ++ List.replicate pfx.length blank)
        (fillLines (width - pfx.length) (pfx.length + first.length) [first] words) := by
  have htext := @foldl_fillStep _ blank newline (indent ++ List.replicate pfx.length blank)
    (width - pfx.length) (pfx.length + first.length) [first] words (List.cons_ne_nil _ _)
    (indent ++ pfx)
  rw [joined_singleton] at htext
  rw [wrapText, h]
  exact htext

/-- The lines of the text can be read off it. -/
theorem lines_eq {text first : Bytes} {words : List Bytes} (h : fields text = first :: words)
    {pfx indent : Bytes} {width : ℤ} {line : List Bytes} {rest : List (List Bytes)}
    (hnil : [] ∉ line :: rest) (hflatten : (line :: rest).flatten = fields text)
    (htext : wrapText text pfx width indent = pfxText pfx indent line rest) :
    fillLines (width - pfx.length) (pfx.length + first.length) [first] words = line :: rest := by
  rw [wrapText_eq h, pfxText_eq] at htext
  apply laidOut_injective (by decide : blank ≠ newline) _ hnil _ hflatten
    (List.append_cancel_left htext)
  · exact nil_notMem_fillLines (List.cons_ne_nil _ _)
  · rw [flatten_fillLines, h, List.singleton_append]

theorem forall_take_cons_iff {P : List Bytes → Prop} {word : Bytes} {words : List Bytes} :
    (∀ k, 2 ≤ k → k ≤ (word :: words).length → P ((word :: words).take k)) ↔
      ∀ k, 0 < k → k ≤ words.length → P ([word] ++ words.take k) := by
  rw [List.length_cons]
  constructor
  · intro h k hk hle
    exact h (k + 1) (by omega) (by omega)
  · intro h k hk hle
    obtain ⟨k, rfl⟩ := Nat.exists_eq_succ_of_ne_zero (show k ≠ 0 by omega)
    exact h k (by omega) (by omega)

/-- The length of the prefix is taken off the width and also counted as part of the first line. -/
theorem wrapText_filled_iff (text pfx : Bytes) (width : ℤ) (indent : Bytes)
    (hwords : fields text ≠ []) :
    (∃ first rest, [] ∉ first :: rest ∧ (first :: rest).flatten = fields text ∧
      wrapText text pfx width indent = pfxText pfx indent first rest ∧
      (∀ line ∈ first :: rest,
        (joined blank line).length ≤ width - pfx.length ∨ line.length = 1) ∧
      (first :: rest).IsChain fun line next => ∀ word ∈ next.head?,
        width - pfx.length < (joined blank line).length + 1 + word.length) ↔
    ∀ k, 2 ≤ k → k ≤ (fields text).length →
      ¬ (width - 2 * pfx.length < (joined blank ((fields text).take k)).length ∧
        (joined blank ((fields text).take k)).length ≤ width - pfx.length) := by
  obtain ⟨word, words, h⟩ := List.exists_cons_of_ne_nil hwords
  have hiff := @filled_fillLines_extra_iff _ blank (width - pfx.length) [word] words pfx.length
    (List.cons_ne_nil _ _) (.inr rfl)
  rw [joined_singleton] at hiff
  have htwice : width - 2 * pfx.length = width - pfx.length - pfx.length := by ring
  have htake := @forall_take_cons_iff (fun line =>
    ¬ (width - pfx.length - pfx.length < (joined blank line).length ∧
      (joined blank line).length ≤ width - pfx.length)) word words
  rw [htwice, h]
  refine Iff.trans ?_ (hiff.trans htake.symm)
  constructor
  · rintro ⟨first, rest, hnil, hflatten, htext, hfits, hfull⟩
    rw [lines_eq h hnil (hflatten.trans h.symm) htext]
    exact ⟨hfits, hfull⟩
  · rintro ⟨hfits, hfull⟩
    have hnil := @nil_notMem_fillLines _ (width - pfx.length) (pfx.length + word.length) [word]
      words (List.cons_ne_nil _ _)
    have hflatten := @flatten_fillLines _ (width - pfx.length) (pfx.length + word.length) [word]
      words
    have htext := wrapText_eq h pfx width indent
    obtain ⟨more, rest, hlines⟩ := @fillLines_eq_cons _ (width - pfx.length)
      (pfx.length + word.length) [word] words
    rw [hlines] at hfits hfull hnil hflatten htext
    refine ⟨[word] ++ more, rest, hnil, ?_, ?_, hfits, hfull⟩
    · rw [hflatten, List.singleton_append]
    · rw [htext, pfxText_eq]

/-- Three words for which there is room on two lines. -/
theorem wrapText_filled_two :
    fields (ascii "11111 222 3") ≠ [] ∧
    ∃ first rest, (first :: rest).flatten = fields (ascii "11111 222 3") ∧
      wrapText (ascii "11111 222 3") (ascii "T:") 8 [blank] =
        pfxText (ascii "T:") [blank] first rest := by
  have hwords : fields (ascii "11111 222 3") ≠ [] := by decide +kernel
  have hlength : (fields (ascii "11111 222 3")).length = 3 := by decide +kernel
  obtain ⟨first, rest, -, hflatten, htext, -⟩ := (wrapText_filled_iff (ascii "11111 222 3")
    (ascii "T:") 8 [blank] hwords).mpr fun k htwo hle => by
      rw [hlength] at hle
      interval_cases k <;> decide +kernel
  exact ⟨hwords, first, rest, hflatten, htext⟩

/-- The three PIDs fit the width of 13 that is left beside the prefix. -/
theorem wrapText_breaks_first_line :
    wrapText (ascii "1111 2222 33\x7d") (ascii "PIDs: \x7b") 20 [] =
      ascii "PIDs: \x7b1111\n       2222 33\x7d" ∧
    ¬ ∃ first rest, [] ∉ first :: rest ∧
      (first :: rest).flatten = fields (ascii "1111 2222 33\x7d") ∧
      wrapText (ascii "1111 2222 33\x7d") (ascii "PIDs: \x7b") 20 [] =
        pfxText (ascii "PIDs: \x7b") [] first rest ∧
      (first :: rest).IsChain fun line next => ∀ word ∈ next.head?,
        (20 : ℤ) - 7 < (joined blank line).length + 1 + word.length := by
  refine ⟨by decide +kernel, ?_⟩
  rintro ⟨first, rest, hnil, hflatten, htext, hfull⟩
  have hwords : fields (ascii "1111 2222 33\x7d") =
      [ascii "1111", ascii "2222", ascii "33\x7d"] := by decide +kernel
  have hlines := lines_eq hwords hnil hflatten htext
  have hbreak : fillLines (20 - (ascii "PIDs: \x7b").length)
      ((ascii "PIDs: \x7b").length + (ascii "1111").length) [ascii "1111"]
      [ascii "2222", ascii "33\x7d"] = [[ascii "1111"], [ascii "2222", ascii "33\x7d"]] := by
    decide +kernel
  obtain ⟨rfl, rfl⟩ := List.cons.inj (hbreak.symm.trans hlines)
  have hword := (List.isChain_cons_cons.mp hfull).1 _ rfl
  exact absurd hword (by decide)

end Tlpi.Cgroups
