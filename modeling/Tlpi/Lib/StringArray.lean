import Tlpi.Lib.CString

/-! Arrays of strings that end with a null pointer, such as argument vectors and environments. -/

namespace Tlpi.Lib

/-- A pointer to a string, or a null pointer. -/
abbrev Slot := Option (List Char)

/-- The strings before the first null pointer. -/
def entries : List Slot → List (List Char)
  | some s :: env => s :: entries env
  | _ => []

/-- An array with these strings, and with what is in it behind the null pointer. -/
def array (es : List (List Char)) (behind : List Slot) : List Slot := es.map some ++ none :: behind

@[simp] theorem entries_array (es : List (List Char)) (behind : List Slot) :
    entries (array es behind) = es := by
  induction es with
  | nil => rfl
  | cons s es ih => exact congrArg (s :: ·) ih

theorem length_array (es : List (List Char)) (behind : List Slot) :
    (array es behind).length = es.length + 1 + behind.length := by
  rw [array, List.length_append, List.length_map, List.length_cons]
  omega

/-- The null pointer stands where the strings end. -/
theorem array_getElem? {es : List (List Char)} {i : ℕ} (h : i ≤ es.length) (behind : List Slot) :
    (array es behind)[i]? = some es[i]? := by
  rcases h.lt_or_eq with hlt | rfl
  · rw [array, List.getElem?_append_left (by rwa [List.length_map]), List.getElem?_map,
      List.getElem?_eq_getElem hlt]
    rfl
  · rw [array, List.getElem?_append_right (List.length_map _).le, List.length_map, Nat.sub_self,
      List.getElem?_eq_none le_rfl]
    rfl

/-! ## Loops that fill an array -/

section Fill
variable {α : Type*} (f : ℕ → α) (v : List α) (c n : ℕ)

theorem length_foldl_set :
    ((List.range n).foldl (fun v j => v.set (j + c) (f j)) v).length = v.length := by
  induction n with
  | zero => rfl
  | succ n ih =>
    rw [List.range_succ, List.foldl_append, List.foldl_cons, List.foldl_nil, List.length_set, ih]

theorem getElem?_foldl_set (i : ℕ) :
    ((List.range n).foldl (fun v j => v.set (j + c) (f j)) v)[i]? =
      if c ≤ i ∧ i < n + c ∧ i < v.length then some (f (i - c)) else v[i]? := by
  induction n with
  | zero =>
    rw [if_neg (by omega)]
    rfl
  | succ n ih =>
    rw [List.range_succ, List.foldl_append, List.foldl_cons, List.foldl_nil, List.getElem?_set,
      length_foldl_set, ih]
    by_cases hi : n + c = i
    · subst hi
      rw [if_pos rfl, Nat.add_sub_cancel]
      split_ifs with hlt hall hall
      · rfl
      · exact absurd ⟨Nat.le_add_left c n, by omega, hlt⟩ hall
      · exact absurd hall.2.2 hlt
      · exact (List.getElem?_eq_none (Nat.le_of_not_lt hlt)).symm
    · rw [if_neg hi]
      have hiff : (c ≤ i ∧ i < n + c ∧ i < v.length) ↔ (c ≤ i ∧ i < n + 1 + c ∧ i < v.length) := by
        omega
      simp only [hiff]

end Fill

/-! ## Environments -/

def defines (name s : List Char) : Bool := (name ++ ['=']).isPrefixOf s

def getenv (environ : List Slot) (name : List Char) : Option (List Char) :=
  ((entries environ).find? (defines name)).map (·.drop (name.length + 1))

theorem defines_iff {name s : List Char} : defines name s = true ↔ ∃ v, s = name ++ '=' :: v := by
  unfold defines
  rw [List.isPrefixOf_iff_prefix]
  constructor
  · rintro ⟨v, rfl⟩
    exact ⟨v, by rw [List.append_assoc, List.singleton_append]⟩
  · rintro ⟨v, rfl⟩
    exact ⟨v, by rw [List.append_assoc, List.singleton_append]⟩

theorem defines_unique {name m s : List Char} (hname : '=' ∉ name) (hm : '=' ∉ m)
    (h : defines name s = true) (h' : defines m s = true) : m = name := by
  obtain ⟨v, rfl⟩ := defines_iff.mp h
  obtain ⟨w, hw⟩ := defines_iff.mp h'
  have hleft : strchr '=' (name ++ '=' :: v) = some (name, v) :=
    strchr_eq_some_iff.mpr ⟨rfl, hname⟩
  have hright : strchr '=' (name ++ '=' :: v) = some (m, w) :=
    strchr_eq_some_iff.mpr ⟨hw, hm⟩
  exact (Prod.mk.inj (Option.some.inj (hright.symm.trans hleft))).1

theorem getenv_isSome_iff {es : List (List Char)} {behind : List Slot} {name : List Char} :
    (getenv (array es behind) name).isSome = true ↔ ∃ s ∈ es, defines name s = true := by
  rw [getenv, entries_array, Option.isSome_map, List.find?_isSome]

end Tlpi.Lib
