import Mathlib.Tactic

/-! Directory trees as sets of directories, each with its i-node and the names that lead to it from
the root of the tree. Changes of a tree are built from three operations: a subtree can be read, cut
off, and put below a directory. -/

namespace Tlpi.Lib

structure Dir (α : Type) where
  ino : ℕ
  comps : List α
  deriving DecidableEq

/-- The directory after `old` has been renamed to `new`. -/
def Dir.move {α : Type} [DecidableEq α] (x : Dir α) (old new : List α) : Dir α :=
  if old <+: x.comps then ⟨x.ino, new ++ x.comps.drop old.length⟩ else x

structure DirTree (α : Type) where
  dirs : List (Dir α)
  ino_inj : ∀ x ∈ dirs, ∀ y ∈ dirs, x.ino = y.ino → x = y
  comps_inj : ∀ x ∈ dirs, ∀ y ∈ dirs, x.comps = y.comps → x = y
  closed : ∀ x ∈ dirs, ∀ cs, cs <+: x.comps → ∃ y ∈ dirs, y.comps = cs
  nonempty : dirs ≠ []

namespace DirTree

variable {α : Type} {t sub : DirTree α} {cs dir : List α} {n : α} {x y : Dir α}

def Has (t : DirTree α) (cs : List α) : Prop := ∃ x ∈ t.dirs, x.comps = cs

/-- No directory, or an empty one. -/
def Leaf (t : DirTree α) (cs : List α) : Prop := ∀ x ∈ t.dirs, cs <+: x.comps → x.comps = cs

def Disjoint (t sub : DirTree α) : Prop := ∀ x ∈ t.dirs, ∀ y ∈ sub.dirs, x.ino ≠ y.ino

instance [DecidableEq α] : Decidable (t.Has cs) :=
  inferInstanceAs (Decidable (∃ x ∈ t.dirs, x.comps = cs))

instance [DecidableEq α] : Decidable (t.Leaf cs) :=
  inferInstanceAs (Decidable (∀ x ∈ t.dirs, cs <+: x.comps → x.comps = cs))

instance : Decidable (t.Disjoint sub) :=
  inferInstanceAs (Decidable (∀ x ∈ t.dirs, ∀ y ∈ sub.dirs, x.ino ≠ y.ino))

theorem Has.above {ds : List α} (h : t.Has ds) (hcs : cs <+: ds) : t.Has cs := by
  obtain ⟨x, hx, rfl⟩ := h
  exact t.closed x hx cs hcs

theorem has_of_mem (hx : x ∈ t.dirs) : t.Has x.comps := ⟨x, hx, rfl⟩

theorem has_root (t : DirTree α) : t.Has [] := by
  obtain ⟨x, hx⟩ := List.exists_mem_of_ne_nil t.dirs t.nonempty
  exact (has_of_mem hx).above List.nil_prefix

/-- A property of directories that holds of the root and passes from parents to children. -/
theorem forall_of_child {P : Dir α → Prop} (hroot : ∀ x ∈ t.dirs, x.comps = [] → P x)
    (hchild : ∀ x ∈ t.dirs, ∀ y ∈ t.dirs, ∀ n, x.comps = y.comps ++ [n] → P y → P x) :
    ∀ x ∈ t.dirs, P x := by
  intro x hx
  induction hcs : x.comps using List.reverseRecOn generalizing x with
  | nil => exact hroot x hx hcs
  | append_singleton cs n ih =>
    obtain ⟨y, hy, hyc⟩ := t.closed x hx cs (by rw [hcs]; exact List.prefix_append cs [n])
    exact hchild x hx y hy n (by rw [hcs, hyc]) (ih y hy hyc)

def get? [DecidableEq α] (t : DirTree α) (cs : List α) : Option (Dir α) :=
  t.dirs.find? fun x => x.comps = cs

theorem get?_eq_some [DecidableEq α] : t.get? cs = some x ↔ x ∈ t.dirs ∧ x.comps = cs := by
  constructor
  · intro h
    exact ⟨List.mem_of_find?_eq_some h, by simpa using List.find?_some h⟩
  · rintro ⟨hx, rfl⟩
    cases hf : t.get? x.comps with
    | none => exact absurd (List.find?_eq_none.mp hf x hx) (by simp)
    | some y =>
      have hy : y.comps = x.comps := by simpa using List.find?_some hf
      rw [t.comps_inj y (List.mem_of_find?_eq_some hf) x hx hy]

theorem get?_eq_none [DecidableEq α] : t.get? cs = none ↔ ¬ t.Has cs := by
  rw [get?, List.find?_eq_none]
  simp [Has]

/-! ## Parts of trees -/

def single (ino : ℕ) : DirTree α where
  dirs := [⟨ino, []⟩]
  ino_inj := by simp
  comps_inj := by simp
  closed := by simp
  nonempty := by simp

/-- The tree without the subtree at `cs`. -/
def prune [DecidableEq α] (t : DirTree α) (cs : List α) (hcs : cs ≠ []) : DirTree α where
  dirs := t.dirs.filter fun x => ¬ cs <+: x.comps
  ino_inj x hx y hy := t.ino_inj x (List.mem_of_mem_filter hx) y (List.mem_of_mem_filter hy)
  comps_inj x hx y hy := t.comps_inj x (List.mem_of_mem_filter hx) y (List.mem_of_mem_filter hy)
  closed x hx ds hds := by
    simp only [List.mem_filter, decide_eq_true_eq] at hx ⊢
    obtain ⟨y, hy, rfl⟩ := t.closed x hx.1 ds hds
    exact ⟨y, ⟨hy, fun h => hx.2 (h.trans hds)⟩, rfl⟩
  nonempty := by
    obtain ⟨x, hx, hnil⟩ := t.has_root
    refine List.ne_nil_of_mem (List.mem_filter.mpr ⟨hx, ?_⟩)
    simpa [hnil] using hcs

theorem mem_prune [DecidableEq α] {hcs : cs ≠ []} :
    x ∈ (t.prune cs hcs).dirs ↔ x ∈ t.dirs ∧ ¬ cs <+: x.comps := by
  simp [prune]

/-- The directory at `cs` with what is below it, seen from there. -/
def subtree [DecidableEq α] (t : DirTree α) (cs : List α) (hcs : t.Has cs) : DirTree α where
  dirs := (t.dirs.filter fun x => cs <+: x.comps).map fun x => ⟨x.ino, x.comps.drop cs.length⟩
  ino_inj := by
    simp only [List.mem_map, List.mem_filter]
    rintro _ ⟨x, hx, rfl⟩ _ ⟨y, hy, rfl⟩ h
    rw [t.ino_inj x hx.1 y hy.1 h]
  comps_inj := by
    simp only [List.mem_map, List.mem_filter, decide_eq_true_eq]
    rintro _ ⟨x, ⟨hx, dx, hdx⟩, rfl⟩ _ ⟨y, ⟨hy, dy, hdy⟩, rfl⟩ h
    rw [← hdx, ← hdy, List.drop_left, List.drop_left] at h
    rw [t.comps_inj x hx y hy (hdx.symm.trans ((congrArg (cs ++ ·) h).trans hdy))]
  closed := by
    simp only [List.mem_map, List.mem_filter, decide_eq_true_eq]
    rintro _ ⟨x, ⟨hx, dx, hdx⟩, rfl⟩ ds hds
    rw [← hdx, List.drop_left] at hds
    obtain ⟨y, hy, hyc⟩ := t.closed x hx (cs ++ ds)
      (hdx ▸ (List.prefix_append_right_inj cs).mpr hds)
    refine ⟨_, ⟨y, ⟨hy, hyc ▸ List.prefix_append cs ds⟩, rfl⟩, ?_⟩
    rw [hyc, List.drop_left]
  nonempty := by
    obtain ⟨x, hx, rfl⟩ := hcs
    exact List.ne_nil_of_mem (List.mem_map_of_mem (List.mem_filter.mpr ⟨hx, by simp⟩))

theorem mem_subtree [DecidableEq α] {hcs : t.Has cs} :
    y ∈ (t.subtree cs hcs).dirs ↔ ⟨y.ino, cs ++ y.comps⟩ ∈ t.dirs := by
  simp only [subtree, List.mem_map, List.mem_filter, decide_eq_true_eq]
  constructor
  · rintro ⟨⟨ino, _⟩, ⟨hx, d, rfl⟩, rfl⟩
    rwa [List.drop_left]
  · intro hy
    exact ⟨_, ⟨hy, List.prefix_append cs y.comps⟩, by rw [List.drop_left]⟩

structure Graftable (t sub : DirTree α) (dir : List α) (n : α) : Prop where
  parent : t.Has dir
  free : ¬ t.Has (dir ++ [n])
  disjoint : t.Disjoint sub

instance [DecidableEq α] : Decidable (Graftable t sub dir n) :=
  decidable_of_iff (t.Has dir ∧ ¬ t.Has (dir ++ [n]) ∧ t.Disjoint sub)
    ⟨fun h => ⟨h.1, h.2.1, h.2.2⟩, fun h => ⟨h.parent, h.free, h.disjoint⟩⟩

/-- The root of `sub` becomes the entry `n` of `dir`. -/
def graft (t sub : DirTree α) (dir : List α) (n : α) (h : Graftable t sub dir n) : DirTree α where
  dirs := t.dirs ++ sub.dirs.map fun y => ⟨y.ino, dir ++ [n] ++ y.comps⟩
  ino_inj := by
    simp only [List.mem_append, List.mem_map]
    rintro x (hx | ⟨x, hx, rfl⟩) y (hy | ⟨y, hy, rfl⟩) he
    · exact t.ino_inj x hx y hy he
    · exact absurd he (h.disjoint x hx y hy)
    · exact absurd he.symm (h.disjoint y hy x hx)
    · rw [sub.ino_inj x hx y hy he]
  comps_inj := by
    have hnew (x : Dir α) (hx : x ∈ t.dirs) (ds : List α) : x.comps ≠ dir ++ [n] ++ ds := fun he =>
      h.free ((has_of_mem hx).above (he ▸ List.prefix_append _ ds))
    simp only [List.mem_append, List.mem_map]
    rintro x (hx | ⟨x, hx, rfl⟩) y (hy | ⟨y, hy, rfl⟩) he
    · exact t.comps_inj x hx y hy he
    · exact absurd he (hnew x hx y.comps)
    · exact absurd he.symm (hnew y hy x.comps)
    · rw [sub.comps_inj x hx y hy (List.append_cancel_left he)]
  closed := by
    have hold {ds : List α} (hds : t.Has ds) : ∃ y, (y ∈ t.dirs ∨ ∃ z ∈ sub.dirs,
        (⟨z.ino, dir ++ [n] ++ z.comps⟩ : Dir α) = y) ∧ y.comps = ds := by
      obtain ⟨y, hy, hyc⟩ := hds
      exact ⟨y, .inl hy, hyc⟩
    have hnew {ds : List α} (hds : sub.Has ds) : ∃ y, (y ∈ t.dirs ∨ ∃ z ∈ sub.dirs,
        (⟨z.ino, dir ++ [n] ++ z.comps⟩ : Dir α) = y) ∧ y.comps = dir ++ [n] ++ ds := by
      obtain ⟨y, hy, rfl⟩ := hds
      exact ⟨_, .inr ⟨y, hy, rfl⟩, rfl⟩
    simp only [List.mem_append, List.mem_map]
    rintro x (hx | ⟨x, hx, rfl⟩) ds hds
    · exact hold (t.closed x hx ds hds)
    · -- the prefix ends above the new entry, or in the new part
      rcases List.prefix_or_prefix_of_prefix hds (List.prefix_append (dir ++ [n]) x.comps)
        with hd | ⟨es, rfl⟩
      · rcases List.prefix_concat_iff.mp hd with rfl | hd
        · simpa using hnew sub.has_root
        · exact hold (h.parent.above hd)
      · exact hnew ((has_of_mem hx).above ((List.prefix_append_right_inj _).mp hds))
  nonempty := by simp [t.nonempty]

theorem mem_graft {h : Graftable t sub dir n} : x ∈ (t.graft sub dir n h).dirs ↔
    x ∈ t.dirs ∨ ∃ y ∈ sub.dirs, x = ⟨y.ino, dir ++ [n] ++ y.comps⟩ := by
  simp [graft, eq_comm]

/-! ## Changes -/

theorem not_prefix_parent (dir : List α) (n : α) : ¬ dir ++ [n] <+: dir := fun h => by
  simpa using h.length_le

section Changes

variable [DecidableEq α] {t' : DirTree α} {ino : ℕ} {dir' : List α} {n' : α}

theorem mem_prune_leaf (h : t.Leaf cs) {hcs : cs ≠ []} :
    x ∈ (t.prune cs hcs).dirs ↔ x ∈ t.dirs ∧ x.comps ≠ cs := by
  rw [mem_prune]
  refine and_congr_right fun hx => not_congr ⟨h x hx, ?_⟩
  rintro he
  exact he ▸ List.prefix_rfl

theorem graftable_prune (hdir : t.Has dir) (hdisj : t.Disjoint sub) :
    Graftable (t.prune (dir ++ [n]) (by simp)) sub dir n where
  parent := by
    obtain ⟨x, hx, rfl⟩ := hdir
    exact ⟨x, mem_prune.mpr ⟨hx, not_prefix_parent _ n⟩, rfl⟩
  free := by
    rintro ⟨x, hx, he⟩
    exact (mem_prune.mp hx).2 (he ▸ List.prefix_rfl)
  disjoint x hx := hdisj x (mem_prune.mp hx).1

theorem disjoint_subtree {hA : t.Has cs} (hcs : cs ≠ []) :
    (t.prune cs hcs).Disjoint (t.subtree cs hA) := by
  intro x hx y hy he
  obtain ⟨hx, hnot⟩ := mem_prune.mp hx
  have h := t.ino_inj x hx _ (mem_subtree.mp hy) he
  exact hnot (h ▸ List.prefix_append cs y.comps)

theorem has_prune (hdir : t.Has dir) {hcs : cs ≠ []} (h : ¬ cs <+: dir) :
    (t.prune cs hcs).Has dir := by
  obtain ⟨x, hx, rfl⟩ := hdir
  exact ⟨x, mem_prune.mpr ⟨hx, h⟩, rfl⟩

def mkdir (t : DirTree α) (dir : List α) (n : α) (ino : ℕ) : Option (DirTree α) :=
  if h : Graftable t (single ino) dir n then some (t.graft (single ino) dir n h) else none

def rmdir (t : DirTree α) (dir : List α) (n : α) : Option (DirTree α) :=
  if t.Has (dir ++ [n]) ∧ t.Leaf (dir ++ [n]) then some (t.prune (dir ++ [n]) (by simp)) else none

def moveOut (t : DirTree α) (dir : List α) (n : α) : Option (DirTree α) :=
  if t.Has (dir ++ [n]) then some (t.prune (dir ++ [n]) (by simp)) else none

/-- An empty directory with the new name is replaced. -/
def moveIn (t sub : DirTree α) (dir : List α) (n : α) : Option (DirTree α) :=
  if h : t.Has dir ∧ t.Leaf (dir ++ [n]) ∧ t.Disjoint sub then
    some ((t.prune (dir ++ [n]) (by simp)).graft sub dir n (graftable_prune h.1 h.2.2))
  else none

/-- A directory is not moved below itself; an empty directory with the new name is replaced. -/
def rename (t : DirTree α) (dir : List α) (n : α) (dir' : List α) (n' : α) : Option (DirTree α) :=
  if h : t.Has (dir ++ [n]) ∧ t.Has dir' ∧ ¬ dir ++ [n] <+: dir' ++ [n'] ∧
      t.Leaf (dir' ++ [n']) then
    some (((t.prune (dir ++ [n]) (by simp)).prune (dir' ++ [n']) (by simp)).graft
      (t.subtree (dir ++ [n]) h.1) dir' n'
      (graftable_prune (has_prune h.2.1 fun hp => h.2.2.1 (hp.trans (List.prefix_append _ _)))
        (disjoint_subtree _)))
  else none

theorem mkdir_eq_some (h : t.mkdir dir n ino = some t') :
    Graftable t (single ino) dir n ∧
      ∀ x, x ∈ t'.dirs ↔ x ∈ t.dirs ∨ x = ⟨ino, dir ++ [n]⟩ := by
  simp only [mkdir, Option.dite_none_right_eq_some, Option.some.injEq] at h
  obtain ⟨hg, rfl⟩ := h
  refine ⟨hg, fun x => ?_⟩
  rw [mem_graft]
  simp [single]

theorem rmdir_eq_some (h : t.rmdir dir n = some t') :
    t.Has (dir ++ [n]) ∧ ∀ x, x ∈ t'.dirs ↔ x ∈ t.dirs ∧ x.comps ≠ dir ++ [n] := by
  simp only [rmdir, Option.ite_none_right_eq_some, Option.some.injEq] at h
  obtain ⟨⟨hhas, hleaf⟩, rfl⟩ := h
  exact ⟨hhas, fun x => mem_prune_leaf hleaf⟩

theorem moveOut_eq_some (h : t.moveOut dir n = some t') :
    t.Has (dir ++ [n]) ∧ ∀ x, x ∈ t'.dirs ↔ x ∈ t.dirs ∧ ¬ dir ++ [n] <+: x.comps := by
  simp only [moveOut, Option.ite_none_right_eq_some, Option.some.injEq] at h
  obtain ⟨hhas, rfl⟩ := h
  exact ⟨hhas, fun x => mem_prune⟩

theorem moveIn_eq_some (h : t.moveIn sub dir n = some t') :
    t.Has dir ∧ t.Disjoint sub ∧ ∀ x, x ∈ t'.dirs ↔
      (x ∈ t.dirs ∧ x.comps ≠ dir ++ [n]) ∨ ∃ y ∈ sub.dirs, x = ⟨y.ino, dir ++ [n] ++ y.comps⟩ := by
  simp only [moveIn, Option.dite_none_right_eq_some, Option.some.injEq] at h
  obtain ⟨⟨hdir, hleaf, hdisj⟩, rfl⟩ := h
  refine ⟨hdir, hdisj, fun x => ?_⟩
  rw [mem_graft, mem_prune_leaf hleaf]

theorem rename_eq_some (h : t.rename dir n dir' n' = some t') :
    t.Has (dir ++ [n]) ∧ t.Has dir' ∧ ¬ dir ++ [n] <+: dir' ++ [n'] ∧ ∀ y, y ∈ t'.dirs ↔
      ∃ x ∈ t.dirs, x.comps ≠ dir' ++ [n'] ∧ x.move (dir ++ [n]) (dir' ++ [n']) = y := by
  simp only [rename, Option.dite_none_right_eq_some, Option.some.injEq] at h
  obtain ⟨⟨hhas, hdir, hsep, hleaf⟩, rfl⟩ := h
  have hleaf' : (t.prune (dir ++ [n]) (by simp)).Leaf (dir' ++ [n']) := fun x hx =>
    hleaf x (mem_prune.mp hx).1
  refine ⟨hhas, hdir, hsep, fun y => ?_⟩
  rw [mem_graft, mem_prune_leaf hleaf', mem_prune]
  constructor
  · rintro (⟨⟨hy, hout⟩, hne⟩ | ⟨z, hz, rfl⟩)
    · exact ⟨y, hy, hne, if_neg hout⟩
    · refine ⟨_, mem_subtree.mp hz, fun he => hsep (he ▸ List.prefix_append _ _), ?_⟩
      simp [Dir.move]
  · rintro ⟨x, hx, hne, rfl⟩
    unfold Dir.move
    split_ifs with hin
    · obtain ⟨cs, hcs⟩ := hin
      refine .inr ⟨⟨x.ino, cs⟩, mem_subtree.mpr (hcs ▸ hx), ?_⟩
      rw [← hcs, List.drop_left]
    · exact .inl ⟨⟨hx, hin⟩, hne⟩

end Changes

end DirTree

end Tlpi.Lib
