import Mathlib.Tactic

/-! C string functions on lists of characters without a terminating null, and the limits of
`limits.h` for file names. -/

namespace Tlpi.Lib

def PATH_MAX : ℕ := 4096
def NAME_MAX : ℕ := 255

/-- What `snprintf()` leaves in a buffer of `size` bytes. -/
def snprintf (size : ℕ) (s : List Char) : List Char := s.take (size - 1)

theorem snprintf_of_lt {size : ℕ} {s : List Char} (h : s.length < size) : snprintf size s = s :=
  List.take_of_length_le (by omega)

/-- What `strncpy()` copies to a buffer of `size` bytes. -/
def strncpy (size : ℕ) (s : List Char) : List Char := s.take size

theorem strncpy_of_le {size : ℕ} {s : List Char} (h : s.length ≤ size) : strncpy size s = s :=
  List.take_of_length_le h

/-- The text before the first `c` and the text behind it, where `strchr()` finds one. -/
def strchr (c : Char) : List Char → Option (List Char × List Char)
  | [] => none
  | x :: s => if x = c then some ([], s) else (strchr c s).map fun t => (x :: t.1, t.2)

theorem strchr_eq_some_iff {c : Char} {s t u : List Char} :
    strchr c s = some (t, u) ↔ s = t ++ c :: u ∧ c ∉ t := by
  induction s generalizing t with
  | nil => simp [strchr]
  | cons x s ih =>
    rw [strchr]
    split_ifs with hx
    · subst hx
      cases t with
      | nil => simp
      | cons y t =>
        simp only [Option.some.injEq, Prod.mk.injEq, List.nil_eq, reduceCtorEq, false_and,
          List.cons_append, List.cons.injEq, List.mem_cons, not_or, false_iff, not_and, not_not]
        rintro ⟨rfl, -⟩ hne
        exact absurd rfl hne
    · cases t with
      | nil => simp [hx]
      | cons y t =>
        simp only [Option.map_eq_some_iff, Prod.exists, Prod.mk.injEq, List.cons.injEq,
          List.cons_append, List.mem_cons, not_or]
        constructor
        · rintro ⟨t', u', hs, ⟨rfl, rfl⟩, rfl⟩
          obtain ⟨rfl, hmem⟩ := ih.mp hs
          exact ⟨⟨rfl, rfl⟩, Ne.symm hx, hmem⟩
        · rintro ⟨⟨rfl, rfl⟩, -, hmem⟩
          exact ⟨t, u, ih.mpr ⟨rfl, hmem⟩, ⟨rfl, rfl⟩, rfl⟩

theorem strchr_eq_none_iff {c : Char} {s : List Char} : strchr c s = none ↔ c ∉ s := by
  induction s with
  | nil => simp [strchr]
  | cons x s ih =>
    rw [strchr]
    split_ifs with hx
    · simp [hx]
    · rw [Option.map_eq_none_iff, ih, List.mem_cons, not_or, and_iff_right (Ne.symm hx)]

theorem strchr_length {c : Char} {s t u : List Char} (h : strchr c s = some (t, u)) :
    u.length < s.length := by
  obtain ⟨rfl, -⟩ := Iff.mp strchr_eq_some_iff h
  rw [List.length_append, List.length_cons]
  omega

theorem splitOn_of_strchr_none {c : Char} {s : List Char} (h : strchr c s = none) :
    s.splitOn c = [s] := by
  have hmem := Iff.mp strchr_eq_none_iff h
  apply List.splitOnP_eq_singleton
  intro x hx
  rw [beq_eq_false_iff_ne]
  rintro rfl
  exact hmem hx

theorem splitOn_of_strchr_some {c : Char} {s t u : List Char} (h : strchr c s = some (t, u)) :
    s.splitOn c = t :: u.splitOn c := by
  obtain ⟨rfl, hmem⟩ := Iff.mp strchr_eq_some_iff h
  apply List.splitOnP_append_cons_of_forall_mem
  · intro x hx
    rw [beq_eq_false_iff_ne]
    rintro rfl
    exact hmem hx
  · exact beq_self_eq_true c

end Tlpi.Lib
