import Tlpi.Lib.Fields
import Tlpi.Lib.Fill

/-! `wrapText()` of `namespaces/namespaces_of.go`, which breaks the lists of PIDs into lines. -/

namespace Tlpi.Namespaces.NamespacesOf
open Lib

def wrapText (text : Bytes) (width : ℤ) (indent : Bytes) : Bytes :=
  match fields text with
  | [] => []
  | first :: words =>
    (words.foldl (fillStep blank newline width indent) (indent ++ first, first.length)).1

theorem blank_ne_newline : blank ≠ newline := by decide

/-- The text in lines: words of the text in their order, filled as far as the width allows. -/
theorem wrapText_greedy (text : Bytes) (width : ℤ) (indent : Bytes)
    (hindent : ∀ b ∈ indent, b = blank) (hwords : fields text ≠ []) :
    ∃ lines : List (List Bytes),
      (wrapText text width indent).splitOn newline =
        lines.map (fun line => indent ++ joined blank line) ∧
      [] ∉ lines ∧ lines.flatten = fields text ∧
      (∀ line ∈ lines, (joined blank line).length ≤ width ∨ line.length = 1) ∧
      lines.IsChain fun line next =>
        ∀ word ∈ next.head?, width < (joined blank line).length + 1 + word.length := by
  obtain ⟨first, words, hfields⟩ := List.exists_cons_of_ne_nil hwords
  have hne : [first] ≠ [] := List.cons_ne_nil _ _
  have hfilled := @filled_fillLines _ blank width [first] words hne (.inr rfl)
  have hflatten := @flatten_fillLines _ width first.length [first] words
  have hnil := @nil_notMem_fillLines _ width first.length [first] words hne
  have htext := @foldl_fillStep _ blank newline indent width first.length [first] words hne indent
  rw [joined_singleton] at hfilled htext
  rw [List.singleton_append, ← hfields] at hflatten
  refine ⟨fillLines width first.length [first] words, ?_, hnil, hflatten, hfilled.fits,
    hfilled.full⟩
  rw [wrapText, hfields]
  dsimp only
  rw [htext, laidOut_eq_intercalate fillLines_ne_nil]
  apply List.splitOn_intercalate
  · intro line hline
    obtain ⟨words', hmem, rfl⟩ := List.mem_map.mp hline
    rw [List.mem_append, not_or]
    constructor
    · intro h
      exact blank_ne_newline (hindent newline h).symm
    · apply notMem_joined blank_ne_newline.symm
      intro word hword
      have hmem : word ∈ fields text := hflatten ▸ List.mem_flatten.mpr ⟨words', hmem, hword⟩
      exact (fields_solid hmem).2.2
  · simpa using fillLines_ne_nil

/-- Four words on three lines. -/
theorem wrapText_greedy_pids :
    (∀ b ∈ [blank, blank], b = blank) ∧ fields (ascii "[ 10 200 ]") ≠ [] ∧
    ∃ lines : List (List Bytes),
      (wrapText (ascii "[ 10 200 ]") 4 [blank, blank]).splitOn newline =
        lines.map (fun line => [blank, blank] ++ joined blank line) ∧
      lines.flatten = fields (ascii "[ 10 200 ]") := by
  have hindent : ∀ b ∈ [blank, blank], b = blank := by simp
  have hwords : fields (ascii "[ 10 200 ]") ≠ [] := by decide +kernel
  obtain ⟨lines, htext, -, hflatten, -⟩ := wrapText_greedy (ascii "[ 10 200 ]") 4
    [blank, blank] hindent hwords
  exact ⟨hindent, hwords, lines, htext, hflatten⟩

end Tlpi.Namespaces.NamespacesOf
