import Tlpi.Inotify.InPlace

/-! `rewriteCachedPaths()` relabels the slots of one subtree, and relabelling back undoes it. -/

namespace Tlpi.Inotify.InPlace
open Lib

/-! ## One pathname -/

section Path

variable {p q : Path}

theorem rewritePath_below {r : List Char} (hr : AtSlash r) (hlen : (q ++ r).length < PATH_MAX) :
    rewritePath p q (p ++ r) = q ++ r := by
  have hin : atOrBelow p (p ++ r) = true := atOrBelow_iff.mpr ⟨r, rfl, hr⟩
  rw [rewritePath, if_pos hin, List.drop_left, snprintf_of_lt hlen, strncpy_of_le hlen.le]

theorem rewritePath_outside {s : Path} (hs : atOrBelow p s = false) : rewritePath p q s = s := by
  rw [rewritePath, hs]
  exact if_neg Bool.false_ne_true

/-- If `s` is at or below `p`, it still fits into its buffer once `p` has become `q`. -/
def Fits (p q s : Path) : Prop := ∀ r, s = p ++ r → AtSlash r → (q ++ r).length < PATH_MAX

theorem rewritePath_back {s : Path} (hfits : Fits p q s) (hs : s.length < PATH_MAX)
    (hout : atOrBelow p s = false → atOrBelow q s = false) :
    rewritePath q p (rewritePath p q s) = s := by
  cases hp : atOrBelow p s with
  | true =>
    obtain ⟨r, rfl, hr⟩ := atOrBelow_iff.mp hp
    rw [rewritePath_below hr (hfits r rfl hr), rewritePath_below hr hs]
  | false => rw [rewritePath_outside hp, rewritePath_outside (hout hp)]

end Path

/-! ## The cache -/

/-- Slot `w` is slot `v` after the directory `p` has become `q`. -/
structure Relabelled (p q : Path) (v w : Watch) : Prop where
  wd : w.wd = v.wd
  entry : v.path = p → w.path = q
  below : ∀ s, v.path = p ++ '/' :: s → w.path = q ++ '/' :: s
  other : v.path ≠ p → (∀ s, v.path ≠ p ++ '/' :: s) → w.path = v.path

theorem relabelled {p q : Path} {w : Watch} (hfits : Fits p q w.path) :
    Relabelled p q w { w with path := rewritePath p q w.path } := by
  refine ⟨rfl, ?_, ?_, ?_⟩
  · intro hw
    have hlen : (q ++ []).length < PATH_MAX := hfits [] (by rw [hw, List.append_nil]) (.inl rfl)
    have hrw := rewritePath_below (p := p) (.inl rfl) hlen
    rw [List.append_nil, List.append_nil] at hrw
    show rewritePath p q w.path = q
    rw [hw, hrw]
  · intro s hw
    show rewritePath p q w.path = _
    have hr : AtSlash ('/' :: s) := .inr ⟨s, rfl⟩
    rw [hw, rewritePath_below hr (hfits _ hw hr)]
  · intro hne hbelow
    refine rewritePath_outside (Bool.eq_false_iff.mpr ?_)
    intro hin
    obtain ⟨r, hr, rfl | ⟨t, rfl⟩⟩ := atOrBelow_iff.mp hin
    · exact hne (hr.trans (List.append_nil p))
    · exact hbelow t hr

/-- No pathname is in two slots that are in use. -/
def DistinctPaths (wl : List Watch) : Prop :=
  wl.Pairwise fun v w => 0 ≤ v.wd → 0 ≤ w.wd → v.path ≠ w.path

instance (wl : List Watch) : Decidable (DistinctPaths wl) :=
  inferInstanceAs (Decidable (wl.Pairwise _))

section Cache

variable {wl : List Watch} {P Q : Path} {x y : Name}

/-- A call of the function where all pathnames fit into their buffers. -/
structure Renames (wl : List Watch) (P : Path) (x : Name) (Q : Path) (y : Name) : Prop where
  unused : ∀ w ∈ wl, w.wd < 0 → w.path = []
  stored : ∀ w ∈ wl, w.path.length < PATH_MAX
  old : (P ++ '/' :: x).length < PATH_MAX
  new : (Q ++ '/' :: y).length < PATH_MAX
  fits : ∀ w ∈ wl, Fits (P ++ '/' :: x) (Q ++ '/' :: y) w.path

/-- Nothing but the moved subtree is at or below the new pathname. -/
def Vacant (wl : List Watch) (p q : Path) : Prop :=
  ∀ w ∈ wl, 0 ≤ w.wd → atOrBelow p w.path = false → atOrBelow q w.path = false

instance (wl : List Watch) (p q : Path) : Decidable (Vacant wl p q) :=
  inferInstanceAs (Decidable (∀ w ∈ wl, _))

theorem Renames.rewriteCachedPaths (h : Renames wl P x Q y) :
    Inotify.rewriteCachedPaths wl P x Q y =
      wl.map fun w => { w with path := rewritePath (P ++ '/' :: x) (Q ++ '/' :: y) w.path } := by
  rw [Inotify.rewriteCachedPaths, entryPath, entryPath, snprintf_of_lt h.old, snprintf_of_lt h.new]

/-- An unused slot is not at or below the new pathname either, as its pathname is empty. -/
theorem Renames.vacant (h : Renames wl P x Q y)
    (hvacant : Vacant wl (P ++ '/' :: x) (Q ++ '/' :: y)) {w : Watch} (hw : w ∈ wl)
    (hout : atOrBelow (P ++ '/' :: x) w.path = false) :
    atOrBelow (Q ++ '/' :: y) w.path = false := by
  by_cases huse : 0 ≤ w.wd
  · exact hvacant w hw huse hout
  · rw [h.unused w hw (not_le.mp huse)]
    exact not_atOrBelow_nil (by simp)

theorem Renames.back (h : Renames wl P x Q y)
    (hvacant : Vacant wl (P ++ '/' :: x) (Q ++ '/' :: y)) {w : Watch} (hw : w ∈ wl) :
    rewritePath (Q ++ '/' :: y) (P ++ '/' :: x)
      (rewritePath (P ++ '/' :: x) (Q ++ '/' :: y) w.path) = w.path :=
  rewritePath_back (h.fits w hw) (h.stored w hw) (h.vacant hvacant hw)

/-- Pathnames stay distinct, because the rewriting can be undone. -/
theorem Renames.distinct (h : Renames wl P x Q y)
    (hvacant : Vacant wl (P ++ '/' :: x) (Q ++ '/' :: y)) (hdist : DistinctPaths wl) :
    DistinctPaths (Inotify.rewriteCachedPaths wl P x Q y) := by
  rw [h.rewriteCachedPaths, DistinctPaths, List.pairwise_map]
  refine List.Pairwise.imp_of_mem ?_ hdist
  intro v w hv hw hne huv huw heq
  apply hne huv huw
  rw [← h.back hvacant hv, ← h.back hvacant hw]
  exact congrArg _ heq

theorem Renames.restores (h : Renames wl P x Q y)
    (hvacant : Vacant wl (P ++ '/' :: x) (Q ++ '/' :: y)) :
    Inotify.rewriteCachedPaths (Inotify.rewriteCachedPaths wl P x Q y) Q y P x = wl := by
  rw [h.rewriteCachedPaths, Inotify.rewriteCachedPaths, entryPath, entryPath,
    snprintf_of_lt h.old, snprintf_of_lt h.new, List.map_map]
  refine (List.map_congr_left ?_).trans (List.map_id wl)
  intro w hw
  show ({ w with path := _ } : Watch) = w
  rw [h.back hvacant hw]

end Cache

/-- `rewriteCachedPaths()` relabels the subtree of the renamed directory and nothing else, also if
its arguments point into the cache. If nothing was at the new pathname, then pathnames stay
distinct and renaming back restores the cache. -/
theorem rewriteCachedPaths_relabels (wl : List Watch) (old new : StrArg) (x y : Name)
    (h : Renames wl (old.get wl) x (new.get wl) y) :
    let p := old.get wl ++ '/' :: x
    let q := new.get wl ++ '/' :: y
    let wl' := rewriteCachedPaths wl old x new y
    List.Forall₂ (Relabelled p q) wl wl' ∧
    (DistinctPaths wl → Vacant wl p q →
      DistinctPaths wl' ∧
      ∀ old' new' : StrArg, old'.get wl' = new.get wl → new'.get wl' = old.get wl →
        rewriteCachedPaths wl' old' y new' x = wl) := by
  intro p q wl'
  have heq : wl' = Inotify.rewriteCachedPaths wl (old.get wl) x (new.get wl) y :=
    rewriteCachedPaths_eq wl old x new y
  refine ⟨?_, ?_⟩
  · rw [heq, h.rewriteCachedPaths, List.forall₂_map_right_iff, List.forall₂_same]
    intro w hw
    exact relabelled (h.fits w hw)
  · intro hdist hvacant
    refine ⟨heq ▸ h.distinct hvacant hdist, ?_⟩
    intro old' new' hold hnew
    rw [rewriteCachedPaths_eq, hold, hnew, heq]
    exact h.restores hvacant

def renamed : List Watch :=
  [⟨1, "r".toList⟩, ⟨2, "r/x".toList⟩, ⟨3, "r/x/s".toList⟩, ⟨4, "r/xz".toList⟩, emptySlot]

theorem renames_renamed : Renames renamed "r".toList "x".toList "r".toList "y".toList where
  unused := by decide
  stored := by decide
  old := by decide
  new := by decide
  fits := by
    intro w hw r hr _
    have hlen : w.path.length < 10 := (by decide : ∀ w ∈ renamed, w.path.length < 10) w hw
    rw [hr, List.length_append] at hlen
    rw [List.length_append]
    exact (hlen : 3 + r.length < 10).trans (by decide)

theorem rewriteCachedPaths_relabels_renamed :
    Renames renamed ((StrArg.slot 0).get renamed) "x".toList ((StrArg.slot 0).get renamed)
      "y".toList ∧
    rewriteCachedPaths renamed (.slot 0) "x".toList (.slot 0) "y".toList =
      [⟨1, "r".toList⟩, ⟨2, "r/y".toList⟩, ⟨3, "r/y/s".toList⟩, ⟨4, "r/xz".toList⟩, emptySlot] ∧
    rewriteCachedPaths (rewriteCachedPaths renamed (.slot 0) "x".toList (.slot 0) "y".toList)
      (.slot 0) "y".toList (.slot 0) "x".toList = renamed := by
  refine ⟨renames_renamed, by decide, ?_⟩
  have h := rewriteCachedPaths_relabels renamed (.slot 0) (.slot 0) _ _ renames_renamed
  exact (h.2 (by decide) (by decide)).2 (.slot 0) (.slot 0) (by decide) (by decide)

end Tlpi.Inotify.InPlace
