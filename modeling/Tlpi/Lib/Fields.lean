import Mathlib.Tactic

/-! `strings.Fields()` on a string of bytes: the parts between the characters that are white space
in Unicode, in their encoding in UTF-8. No byte that begins one of these encodings is inside the
encoding of another character, so that the bytes can be looked at one by one. -/

namespace Tlpi.Lib

abbrev Bytes := List UInt8

def blank : UInt8 := 0x20
def newline : UInt8 := 0x0A

/-- The bytes of an ASCII text. -/
def ascii (s : String) : Bytes := s.toList.map fun c => c.toNat.toUInt8

/-- The encodings of the white space characters. -/
def whiteSpace : List Bytes :=
  [[0x09], [0x0A], [0x0B], [0x0C], [0x0D], [0x20], [0xC2, 0x85], [0xC2, 0xA0], [0xE1, 0x9A, 0x80],
    [0xE2, 0x80, 0x80], [0xE2, 0x80, 0x81], [0xE2, 0x80, 0x82], [0xE2, 0x80, 0x83],
    [0xE2, 0x80, 0x84], [0xE2, 0x80, 0x85], [0xE2, 0x80, 0x86], [0xE2, 0x80, 0x87],
    [0xE2, 0x80, 0x88], [0xE2, 0x80, 0x89], [0xE2, 0x80, 0x8A], [0xE2, 0x80, 0xA8],
    [0xE2, 0x80, 0xA9], [0xE2, 0x80, 0xAF], [0xE2, 0x81, 0x9F], [0xE3, 0x80, 0x80]]

/-- The number of bytes of the white space character at the front, 0 if there is none. -/
def spaceWidth (s : Bytes) : ℕ := ((whiteSpace.find? (·.isPrefixOf s)).map List.length).getD 0

def finished (word : Bytes) : List Bytes := if word = [] then [] else [word]

/-- The words from the middle of a text on: `skip` bytes belong to a white space character still,
and `word` is the part of a word that has been read. -/
def fieldsFrom (skip : ℕ) (word : Bytes) : Bytes → List Bytes
  | [] => finished word
  | b :: s =>
    match skip, spaceWidth (b :: s) with
    | skip + 1, _ => fieldsFrom skip word s
    | 0, 0 => fieldsFrom 0 (word ++ [b]) s
    | 0, width + 1 => finished word ++ fieldsFrom width [] s

def fields (s : Bytes) : List Bytes := fieldsFrom 0 [] s

theorem spaceWidth_blank (s : Bytes) : spaceWidth (blank :: s) = 1 := rfl

theorem spaceWidth_newline (s : Bytes) : spaceWidth (newline :: s) = 1 := rfl

/-- A part of a word. -/
def Solid (word : Bytes) : Prop := blank ∉ word ∧ newline ∉ word

theorem Solid.append {word : Bytes} (h : Solid word) {b : UInt8} {s : Bytes}
    (hb : spaceWidth (b :: s) = 0) : Solid (word ++ [b]) := by
  have hne : ∀ c, spaceWidth (c :: s) = 1 → c ≠ b := by
    rintro c hc rfl
    cases hc.symm.trans hb
  constructor
  · rw [List.mem_append, List.mem_singleton, not_or]
    exact ⟨h.1, hne _ (spaceWidth_blank s)⟩
  · rw [List.mem_append, List.mem_singleton, not_or]
    exact ⟨h.2, hne _ (spaceWidth_newline s)⟩

theorem Solid.finished {word w : Bytes} (h : Solid word) (hw : w ∈ finished word) :
    w ≠ [] ∧ Solid w := by
  rw [Lib.finished] at hw
  split_ifs at hw with hnil
  · cases hw
  · rw [List.mem_singleton.mp hw]
    exact ⟨hnil, h⟩

theorem fieldsFrom_solid {skip : ℕ} {word s : Bytes} (hword : Solid word) :
    ∀ w ∈ fieldsFrom skip word s, w ≠ [] ∧ Solid w := by
  fun_induction fieldsFrom skip word s with
  | case1 skip word => exact fun w => hword.finished
  | case2 word b s skip ih => exact ih hword
  | case3 word b s hzero ih => exact ih (hword.append hzero)
  | case4 word b s width _ ih =>
    intro w hw
    rcases List.mem_append.mp hw with hw | hw
    · exact hword.finished hw
    · exact ih ⟨List.not_mem_nil, List.not_mem_nil⟩ w hw

theorem fields_solid {s w : Bytes} (hw : w ∈ fields s) : w ≠ [] ∧ Solid w :=
  fieldsFrom_solid ⟨List.not_mem_nil, List.not_mem_nil⟩ w hw

example : fields [0x31, 0x20, 0x20, 0x32, 0xE2, 0x80, 0x89, 0xE2, 0x80, 0x0A] =
    [[0x31], [0x32], [0xE2, 0x80]] := by decide

end Tlpi.Lib
