import Mathlib.Tactic
import Tlpi.Lib.CString

/-! Pathnames as strings and as lists of components. A string that is built from components by
`joinPath` has another one as a leading part, cut at a slash, exactly when its components do. -/

namespace Tlpi.Lib

/-- `strncmp(p, q, len) == 0 && (q[len] == '/' || q[len] == '\0')` with `len = strlen(p)`. -/
def atOrBelow (p q : List Char) : Bool :=
  p.isPrefixOf q &&
    match q.drop p.length with
    | [] => true
    | c :: _ => c == '/'

/-- The rest of a pathname after some of its components. -/
def AtSlash (r : List Char) : Prop := r = [] ∨ ∃ t, r = '/' :: t

theorem atOrBelow_iff {p q : List Char} : atOrBelow p q = true ↔ ∃ r, q = p ++ r ∧ AtSlash r := by
  unfold atOrBelow
  rw [Bool.and_eq_true, List.isPrefixOf_iff_prefix]
  constructor
  · rintro ⟨⟨r, rfl⟩, h⟩
    refine ⟨r, rfl, ?_⟩
    rw [List.drop_left] at h
    cases r with
    | nil => exact .inl rfl
    | cons c t => exact .inr ⟨t, by rw [beq_iff_eq.mp h]⟩
  · rintro ⟨r, rfl, h⟩
    refine ⟨List.prefix_append p r, ?_⟩
    rw [List.drop_left]
    rcases h with rfl | ⟨t, rfl⟩ <;> rfl

theorem not_atOrBelow_nil {p : List Char} (hp : p ≠ []) : atOrBelow p [] = false := by
  rw [Bool.eq_false_iff]
  intro h
  obtain ⟨r, hr, -⟩ := atOrBelow_iff.mp h
  exact hp (List.append_eq_nil_iff.mp hr.symm).1

abbrev Name := List Char

structure ValidName (n : Name) : Prop where
  ne_nil : n ≠ []
  no_slash : '/' ∉ n
  no_null : '\x00' ∉ n
  length_le : n.length ≤ NAME_MAX

instance (n : Name) : Decidable (ValidName n) :=
  decidable_of_iff (n ≠ [] ∧ '/' ∉ n ∧ '\x00' ∉ n ∧ n.length ≤ NAME_MAX)
    ⟨fun ⟨a, b, c, d⟩ => ⟨a, b, c, d⟩, fun ⟨a, b, c, d⟩ => ⟨a, b, c, d⟩⟩

/-- A directory walk puts a slash between a pathname and a name, unless there is one already. -/
def joinPath (p : List Char) (n : Name) : List Char :=
  if p.getLast? = some '/' then p ++ n else p ++ '/' :: n

def pathOf (root : List Char) (cs : List Name) : List Char := cs.foldl joinPath root

def flat (cs : List Name) : List Char := cs.flatMap fun n => '/' :: n

@[simp] theorem flat_nil : flat [] = [] := rfl

@[simp] theorem flat_cons (n : Name) (cs : List Name) : flat (n :: cs) = '/' :: n ++ flat cs := rfl

@[simp] theorem flat_append (cs ds : List Name) : flat (cs ++ ds) = flat cs ++ flat ds :=
  List.flatMap_append

theorem atSlash_flat (cs : List Name) : AtSlash (flat cs) := by
  cases cs with
  | nil => exact .inl rfl
  | cons n cs => exact .inr ⟨n ++ flat cs, rfl⟩

theorem joinPath_getLast {p : List Char} {n : Name} (hn : ValidName n) :
    (joinPath p n).getLast? ≠ some '/' := by
  have hlast (q : List Char) : (q ++ n).getLast? ≠ some '/' := by
    intro h
    rw [List.getLast?_append_of_ne_nil _ hn.ne_nil] at h
    exact hn.no_slash (List.mem_of_getLast? h)
  unfold joinPath
  split_ifs
  · exact hlast p
  · rw [List.append_cons]
    exact hlast _

theorem pathOf_eq {root : List Char} (hroot : root.getLast? ≠ some '/') {cs : List Name}
    (hcs : ∀ n ∈ cs, ValidName n) : pathOf root cs = root ++ flat cs := by
  induction cs generalizing root with
  | nil => exact (List.append_nil root).symm
  | cons n cs ih =>
    have hn := hcs n List.mem_cons_self
    have hjoin : joinPath root n = root ++ '/' :: n := if_neg hroot
    have hrest := ih (joinPath_getLast (p := root) hn) fun m hm => hcs m (List.mem_cons_of_mem _ hm)
    rw [pathOf, List.foldl_cons]
    refine hrest.trans ?_
    rw [hjoin, flat_cons, List.append_assoc]

/-- A name ends at the first slash. -/
theorem name_split {a b s t : List Char} (ha : '/' ∉ a) (hb : '/' ∉ b) (hs : AtSlash s)
    (ht : AtSlash t) (h : a ++ s = b ++ t) : a = b ∧ s = t := by
  have htake {c r : List Char} (hc : '/' ∉ c) (hr : AtSlash r) :
      (c ++ r).takeWhile (· ≠ '/') = c := by
    rw [List.takeWhile_append_of_pos]
    · rcases hr with rfl | ⟨u, rfl⟩ <;> simp
    · intro x hx
      rw [decide_eq_true_eq]
      rintro rfl
      exact hc hx
  have hab : a = b := by
    rw [← htake ha hs, h, htake hb ht]
  subst hab
  exact ⟨rfl, List.append_cancel_left h⟩

theorem flat_prefix_iff {cs ds : List Name} (hcs : ∀ n ∈ cs, ValidName n)
    (hds : ∀ n ∈ ds, ValidName n) :
    (∃ r, flat ds = flat cs ++ r ∧ AtSlash r) ↔ cs <+: ds := by
  constructor
  · rintro ⟨r, h, hr⟩
    induction cs generalizing ds with
    | nil => exact List.nil_prefix
    | cons c cs ih =>
      cases ds with
      | nil => simp at h
      | cons d ds =>
        rw [flat_cons, flat_cons, List.cons_append, List.cons_append, List.cons_append,
          List.cons.injEq, List.append_assoc] at h
        have hrest : AtSlash (flat cs ++ r) := by
          rcases atSlash_flat cs with he | ⟨t, he⟩
          · rwa [he]
          · exact .inr ⟨t ++ r, by rw [he]; rfl⟩
        obtain ⟨rfl, h'⟩ := name_split (hds d List.mem_cons_self).no_slash
          (hcs c List.mem_cons_self).no_slash (atSlash_flat ds) hrest h.2
        have hpre := ih (fun n hn => hcs n (List.mem_cons_of_mem _ hn))
          (fun n hn => hds n (List.mem_cons_of_mem _ hn)) h'
        exact List.cons_prefix_cons.mpr ⟨rfl, hpre⟩
  · rintro ⟨es, rfl⟩
    exact ⟨flat es, flat_append cs es, atSlash_flat es⟩

section Root

variable {root : List Char} (hroot : root.getLast? ≠ some '/') {cs ds : List Name}
  (hcs : ∀ n ∈ cs, ValidName n) (hds : ∀ n ∈ ds, ValidName n)
include hroot hcs hds

theorem atOrBelow_pathOf : atOrBelow (pathOf root cs) (pathOf root ds) = true ↔ cs <+: ds := by
  rw [atOrBelow_iff, ← flat_prefix_iff hcs hds, pathOf_eq hroot hcs, pathOf_eq hroot hds]
  simp only [List.append_assoc, List.append_cancel_left_eq]

theorem pathOf_injective (h : pathOf root cs = pathOf root ds) : cs = ds := by
  rw [pathOf_eq hroot hcs, pathOf_eq hroot hds, List.append_cancel_left_eq] at h
  have h1 := (flat_prefix_iff hcs hds).mp ⟨[], by rw [h, List.append_nil], .inl rfl⟩
  have h2 := (flat_prefix_iff hds hcs).mp ⟨[], by rw [h, List.append_nil], .inl rfl⟩
  exact h1.eq_of_length_le h2.length_le

theorem pathOf_append : pathOf root (cs ++ ds) = pathOf root cs ++ flat ds := by
  have happ : ∀ n ∈ cs ++ ds, ValidName n := by
    intro n hn
    rcases List.mem_append.mp hn with hn | hn
    · exact hcs n hn
    · exact hds n hn
  rw [pathOf_eq hroot happ, pathOf_eq hroot hcs, flat_append, List.append_assoc]

end Root

theorem pathOf_snoc {root : List Char} (hroot : root.getLast? ≠ some '/') {cs : List Name}
    {n : Name} (hcs : ∀ n ∈ cs, ValidName n) (hn : ValidName n) :
    pathOf root (cs ++ [n]) = pathOf root cs ++ '/' :: n := by
  have hone : ∀ m ∈ [n], ValidName m := by
    intro m hm
    rwa [List.mem_singleton.mp hm]
  rw [pathOf_append hroot hcs hone]
  simp

end Tlpi.Lib
