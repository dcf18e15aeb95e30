import Tlpi.Inotify.Dtree

/-! The loops of `rewriteCachedPaths()` and `zapSubtree()` as the source has them: they change the
array slot by slot, while their arguments may point to pathnames in that array. Both copy what their
arguments point to before the loop, so that each is the function of `Cache` or `Dtree` that takes
the strings by value. -/

namespace Tlpi.Inotify.InPlace
open Lib

/-- A `char *` argument: a string of its own, or the pathname in a slot of the cache. -/
inductive StrArg
  | own (s : Path)
  | slot (j : ℕ)

def StrArg.get (wl : List Watch) : StrArg → Path
  | own s => s
  | slot j => (wl[j]?.map Watch.path).getD []

/-! ## The loop of `rewriteCachedPaths()` -/

def rewriteSlot (fullPath newPre : Path) (wl : List Watch) (j : ℕ) : List Watch :=
  match wl[j]? with
  | none => wl
  | some w =>
    if atOrBelow fullPath w.path then
      wl.set j { w with
        path := strncpy PATH_MAX (snprintf PATH_MAX (newPre ++ w.path.drop fullPath.length)) }
    else wl

def rewriteCachedPaths (wl : List Watch) (oldPathPre : StrArg) (oldName : Name)
    (newPathPre : StrArg) (newName : Name) : List Watch :=
  let fullPath := entryPath (oldPathPre.get wl) oldName
  let newPre := entryPath (newPathPre.get wl) newName
  (List.range wl.length).foldl (rewriteSlot fullPath newPre) wl

theorem rewriteSlot_append (fullPath newPre : Path) (done : List Watch) (w : Watch)
    (rest : List Watch) : rewriteSlot fullPath newPre (done ++ w :: rest) done.length =
      done ++ { w with path := rewritePath fullPath newPre w.path } :: rest := by
  have hget : (done ++ w :: rest)[done.length]? = some w := by
    rw [List.getElem?_append_right le_rfl, Nat.sub_self]
    rfl
  unfold rewriteSlot rewritePath
  rw [hget]
  dsimp only
  by_cases hm : atOrBelow fullPath w.path = true
  · rw [if_pos hm, if_pos hm, List.set_append_right _ _ le_rfl, Nat.sub_self]
    rfl
  · rw [if_neg hm, if_neg hm]

/-- Induction on the slots that are left; those before them have been rewritten. -/
theorem foldl_rewriteSlot (fullPath newPre : Path) (done rest : List Watch) :
    (List.range' done.length rest.length).foldl (rewriteSlot fullPath newPre) (done ++ rest) =
      done ++ rest.map fun w => { w with path := rewritePath fullPath newPre w.path } := by
  induction rest generalizing done with
  | nil => rfl
  | cons w rest ih =>
    have hnext := ih (done ++ [{ w with path := rewritePath fullPath newPre w.path }])
    rw [List.length_append, List.length_singleton, List.append_assoc, List.append_assoc] at hnext
    rw [List.length_cons, List.range'_succ, List.foldl_cons, rewriteSlot_append]
    exact hnext

theorem rewriteCachedPaths_eq (wl : List Watch) (old : StrArg) (oldName : Name) (new : StrArg)
    (newName : Name) : rewriteCachedPaths wl old oldName new newName =
      Inotify.rewriteCachedPaths wl (old.get wl) oldName (new.get wl) newName := by
  unfold rewriteCachedPaths
  rw [List.range_eq_range']
  exact foldl_rewriteSlot _ _ [] wl

/-! ## The loop of `zapSubtree()` -/

/-- The cache, the kernel, the local `cnt`, and the calls of `inotify_rm_watch()` with whether they
have succeeded. -/
structure Zap (σ : Type) where
  cache : List Watch
  kernel : σ
  cnt : ℤ
  calls : List (ℤ × Bool)

variable {σ : Type} (K : Kernel σ)

/-- The loop from slot `j` on, where `n` slots are left. -/
def zapLoop (pn : Path) : ℕ → ℕ → Zap σ → Zap σ
  | 0, _, z => z
  | n + 1, j, z =>
    match z.cache[j]? with
    | none => z
    | some w =>
      if 0 ≤ w.wd ∧ atOrBelow pn w.path then
        let r := K.rmWatch z.kernel w.wd
        let calls := z.calls ++ [(w.wd, r.2)]
        if r.2 then
          zapLoop pn n (j + 1)
            { cache := markCacheSlotEmpty z.cache j, kernel := r.1, cnt := z.cnt + 1,
              calls := calls }
        else { z with kernel := r.1, cnt := -1, calls := calls }
      else zapLoop pn n (j + 1) z

/-- The function returns `cnt`. -/
def zapSubtree (wl : List Watch) (k : σ) (path : StrArg) : Zap σ :=
  zapLoop K (path.get wl) wl.length 0 ⟨wl, k, 0, []⟩

end Tlpi.Inotify.InPlace
