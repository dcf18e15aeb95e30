import Mathlib.Tactic
import Tlpi.Lib.Paths

/-! The watch list cache of `inotify/inotify_dtree.c`: an array of slots that is searched linearly.
What the cache is for is the partial map `view` from watch descriptors to pathnames; each operation
on the slots is an operation on that map as long as no descriptor is in two slots. -/

namespace Tlpi.Inotify
open Lib

abbrev Path := List Char

structure Watch where
  wd : ℤ
  path : Path
  deriving DecidableEq

def emptySlot : Watch := ⟨-1, []⟩

/-! ## Operations -/

def findWatch (wl : List Watch) (wd : ℤ) : Option ℕ := wl.findIdx? fun w => w.wd = wd

def markCacheSlotEmpty (wl : List Watch) (slot : ℕ) : List Watch := wl.set slot emptySlot

def ALLOC_INCR : ℕ := 200

def findEmptyCacheSlot (wl : List Watch) : List Watch × ℕ :=
  match wl.findIdx? fun w => w.wd = -1 with
  | some j => (wl, j)
  | none => (wl ++ List.replicate ALLOC_INCR emptySlot, wl.length)

def addWatchToCache (wl : List Watch) (wd : ℤ) (pathname : Path) : List Watch × ℕ :=
  let e := findEmptyCacheSlot wl
  (e.1.set e.2 ⟨wd, strncpy PATH_MAX pathname⟩, e.2)

def pathnameToCacheSlot (wl : List Watch) (pathname : Path) : Option ℕ :=
  wl.findIdx? fun w => 0 ≤ w.wd ∧ w.path = pathname

def pathnameInCache (wl : List Watch) (pathname : Path) : Bool :=
  (pathnameToCacheSlot wl pathname).isSome

def rewritePath (fullPath newPre path : Path) : Path :=
  if atOrBelow fullPath path then
    strncpy PATH_MAX (snprintf PATH_MAX (newPre ++ path.drop fullPath.length))
  else path

-- the pathname of an entry as the buffers of `rewriteCachedPaths()` hold it
def entryPath (dir : Path) (name : Name) : Path := snprintf PATH_MAX (dir ++ '/' :: name)

def rewriteCachedPaths (wl : List Watch) (oldPathPre : Path) (oldName : Name) (newPathPre : Path)
    (newName : Name) : List Watch :=
  wl.map fun w =>
    { w with
      path := rewritePath (entryPath oldPathPre oldName) (entryPath newPathPre newName) w.path }

/-! ## Representation invariant -/

structure CacheOk (wl : List Watch) : Prop where
  slot : ∀ w ∈ wl, 0 ≤ w.wd ∨ w = emptySlot
  distinct : ∀ (i j : ℕ) (v w : Watch), wl[i]? = some v → wl[j]? = some w → 0 ≤ v.wd →
    v.wd = w.wd → i = j

theorem cacheOk_nil : CacheOk [] := ⟨by simp, by simp⟩

theorem findWatch_some {wl : List Watch} {wd : ℤ} {j : ℕ} (h : findWatch wl wd = some j) :
    ∃ w, wl[j]? = some w ∧ w.wd = wd := by
  obtain ⟨hj, hw, -⟩ := List.findIdx?_eq_some_iff_getElem.mp h
  exact ⟨wl[j], List.getElem?_eq_getElem hj, of_decide_eq_true hw⟩

theorem findWatch_none {wl : List Watch} {wd : ℤ} :
    findWatch wl wd = none ↔ ∀ w ∈ wl, w.wd ≠ wd := by
  simp [findWatch, List.findIdx?_eq_none_iff]

theorem pathnameInCache_iff {wl : List Watch} {p : Path} :
    pathnameInCache wl p = true ↔ ∃ w ∈ wl, 0 ≤ w.wd ∧ w.path = p := by
  rw [pathnameInCache, pathnameToCacheSlot, List.findIdx?_isSome, List.any_eq_true]
  simp

/-- A slot gets new content, whose descriptor is in no other slot. -/
theorem CacheOk.set {wl : List Watch} (h : CacheOk wl) {j : ℕ} {w : Watch}
    (hw : 0 ≤ w.wd ∨ w = emptySlot)
    (hfresh : ∀ (i : ℕ) (v : Watch), i ≠ j → wl[i]? = some v → 0 ≤ w.wd → v.wd ≠ w.wd) :
    CacheOk (wl.set j w) := by
  constructor
  · intro v hv
    rcases List.mem_or_eq_of_mem_set hv with hv | rfl
    · exact h.slot v hv
    · exact hw
  · intro i k u v hu hv hpos he
    rw [List.getElem?_set] at hu hv
    split_ifs at hu hv with hji _ hjk _ hjk
    · exact hji.symm.trans hjk
    · obtain rfl := Option.some.inj hu
      exact absurd he.symm (hfresh k v (Ne.symm hjk) hv hpos)
    · obtain rfl := Option.some.inj hv
      exact absurd he (hfresh i u (Ne.symm hji) hu (he ▸ hpos))
    · exact h.distinct i k u v hu hv hpos he

theorem CacheOk.markCacheSlotEmpty {wl : List Watch} (h : CacheOk wl) (j : ℕ) :
    CacheOk (markCacheSlotEmpty wl j) :=
  h.set (.inr rfl) fun _ _ _ _ hneg => absurd hneg (by decide)

theorem CacheOk.append_empty {wl : List Watch} (h : CacheOk wl) (n : ℕ) :
    CacheOk (wl ++ List.replicate n emptySlot) := by
  have hold {i : ℕ} {w : Watch} (hw : (wl ++ List.replicate n emptySlot)[i]? = some w) :
      wl[i]? = some w ∨ w = emptySlot := by
    rw [List.getElem?_append] at hw
    split_ifs at hw
    · exact .inl hw
    · exact .inr (List.eq_of_mem_replicate (List.mem_of_getElem? hw))
  constructor
  · intro w hw
    obtain ⟨i, hi⟩ := List.mem_iff_getElem?.mp hw
    rcases hold hi with hi | rfl
    · exact h.slot w (List.mem_of_getElem? hi)
    · exact .inr rfl
  · intro i j v w hv hw hpos he
    rcases hold hv with hv | rfl
    · rcases hold hw with hw | rfl
      · exact h.distinct i j v w hv hw hpos he
      · exact absurd (he ▸ hpos) (by decide)
    · exact absurd hpos (by decide)

/-- The slot that `findEmptyCacheSlot()` returns is free, and the slots in use stay as they are. -/
theorem findEmptyCacheSlot_spec {wl : List Watch} (h : CacheOk wl) :
    CacheOk (findEmptyCacheSlot wl).1 ∧
      (findEmptyCacheSlot wl).1[(findEmptyCacheSlot wl).2]? = some emptySlot ∧
      ∀ w : Watch, 0 ≤ w.wd → (w ∈ (findEmptyCacheSlot wl).1 ↔ w ∈ wl) := by
  unfold findEmptyCacheSlot
  split
  · next j hj =>
    obtain ⟨hlt, hw, -⟩ := List.findIdx?_eq_some_iff_getElem.mp hj
    refine ⟨h, ?_, fun _ _ => Iff.rfl⟩
    rw [List.getElem?_eq_getElem hlt]
    rcases h.slot _ (List.getElem_mem hlt) with hpos | he
    · rw [of_decide_eq_true hw] at hpos
      exact absurd hpos (by decide)
    · rw [he]
  · refine ⟨h.append_empty ALLOC_INCR, ?_, fun w hw => ?_⟩
    · rw [List.getElem?_append_right le_rfl, Nat.sub_self]
      rfl
    · rw [List.mem_append, or_iff_left]
      intro hm
      rw [List.eq_of_mem_replicate hm] at hw
      exact absurd hw (by decide)

theorem CacheOk.addWatchToCache {wl : List Watch} (h : CacheOk wl) {n : ℕ} (p : Path)
    (hfresh : ∀ w ∈ wl, w.wd ≠ n) : CacheOk (addWatchToCache wl n p).1 := by
  obtain ⟨hok, -, hmem⟩ := findEmptyCacheSlot_spec h
  refine hok.set (.inl (Int.natCast_nonneg n)) fun i v _ hv _ he => ?_
  have hpos : 0 ≤ v.wd := he ▸ Int.natCast_nonneg n
  exact hfresh v ((hmem v hpos).mp (List.mem_of_getElem? hv)) he

theorem entryPath_ne_nil (dir : Path) (name : Name) : entryPath dir name ≠ [] := by
  unfold entryPath snprintf
  rw [Ne, List.take_eq_nil_iff]
  simp [PATH_MAX]

theorem CacheOk.rewriteCachedPaths {wl : List Watch} (h : CacheOk wl) (p : Path) (n : Name)
    (q : Path) (m : Name) : CacheOk (rewriteCachedPaths wl p n q m) := by
  unfold Inotify.rewriteCachedPaths
  constructor
  · intro w hw
    obtain ⟨v, hv, rfl⟩ := List.mem_map.mp hw
    rcases h.slot v hv with hpos | rfl
    · exact .inl hpos
    · right
      -- the pathname that is looked for is not empty, so free slots do not match
      simp [emptySlot, rewritePath, not_atOrBelow_nil (entryPath_ne_nil p n)]
  · intro i j v w hv hw hpos he
    rw [List.getElem?_map, Option.map_eq_some_iff] at hv hw
    obtain ⟨v, hv, rfl⟩ := hv
    obtain ⟨w, hw, rfl⟩ := hw
    exact h.distinct i j v w hv hw hpos he

/-! ## The map that a cache stands for -/

abbrev View := ℕ → Option Path

def view (wl : List Watch) : View := fun n => (wl.find? fun w => w.wd = (n : ℤ)).map Watch.path

theorem view_eq_some {wl : List Watch} (h : CacheOk wl) {n : ℕ} {p : Path} :
    view wl n = some p ↔ ⟨n, p⟩ ∈ wl := by
  unfold view
  rw [Option.map_eq_some_iff]
  constructor
  · rintro ⟨⟨wd, q⟩, hw, rfl⟩
    have hn : wd = n := by simpa using List.find?_some hw
    exact hn ▸ List.mem_of_find?_eq_some hw
  · intro hm
    cases hf : wl.find? fun w => w.wd = (n : ℤ) with
    | none => exact absurd (List.find?_eq_none.mp hf _ hm) (by simp)
    | some w =>
      refine ⟨w, rfl, ?_⟩
      have hn : w.wd = n := by simpa using List.find?_some hf
      obtain ⟨i, hi⟩ := List.mem_iff_getElem?.mp (List.mem_of_find?_eq_some hf)
      obtain ⟨j, hj⟩ := List.mem_iff_getElem?.mp hm
      have hij := h.distinct i j _ _ hi hj (by omega) hn
      subst hij
      rw [Option.some.inj (hi.symm.trans hj)]

theorem view_ext {V W : View} (h : ∀ n p, V n = some p ↔ W n = some p) : V = W := by
  funext n
  exact Option.ext (h n)

theorem findWatch_view {wl : List Watch} (h : CacheOk wl) {n j : ℕ} (hj : findWatch wl n = some j) :
    ∃ p, wl[j]? = some ⟨n, p⟩ ∧ view wl n = some p := by
  obtain ⟨⟨wd, p⟩, hw, rfl⟩ := findWatch_some hj
  exact ⟨p, hw, (view_eq_some h).mpr (List.mem_of_getElem? hw)⟩

theorem findWatch_eq_none {wl : List Watch} (h : CacheOk wl) {n : ℕ} :
    findWatch wl n = none ↔ view wl n = none := by
  rw [findWatch_none]
  constructor
  · intro hn
    by_contra hv
    obtain ⟨p, hp⟩ := Option.ne_none_iff_exists'.mp hv
    exact hn _ ((view_eq_some h).mp hp) rfl
  · rintro hv ⟨wd, p⟩ hw rfl
    rw [(view_eq_some h).mpr hw] at hv
    cases hv

theorem pathnameInCache_view {wl : List Watch} (h : CacheOk wl) {p : Path} :
    pathnameInCache wl p = true ↔ ∃ n, view wl n = some p := by
  rw [pathnameInCache_iff]
  constructor
  · rintro ⟨⟨wd, q⟩, hw, hpos, rfl⟩
    obtain ⟨n, rfl⟩ := Int.eq_ofNat_of_zero_le hpos
    exact ⟨n, (view_eq_some h).mpr hw⟩
  · rintro ⟨n, hn⟩
    exact ⟨_, (view_eq_some h).mp hn, Int.natCast_nonneg n, rfl⟩

theorem mem_set_iff {wl : List Watch} {j : ℕ} (hj : j < wl.length) (v w : Watch) :
    w ∈ wl.set j v ↔ w = v ∨ ∃ i, i ≠ j ∧ wl[i]? = some w := by
  rw [List.mem_iff_getElem?]
  constructor
  · rintro ⟨i, hi⟩
    rw [List.getElem?_set] at hi
    split_ifs at hi with hij
    · exact .inl (Option.some.inj hi).symm
    · exact .inr ⟨i, Ne.symm hij, hi⟩
  · rintro (rfl | ⟨i, hij, hi⟩)
    · exact ⟨j, by rw [List.getElem?_set_self hj]⟩
    · exact ⟨i, by rw [List.getElem?_set_ne (Ne.symm hij), hi]⟩

theorem ne_emptySlot (m : ℕ) (q : Path) : (⟨m, q⟩ : Watch) ≠ emptySlot := by
  simp [emptySlot]

theorem view_addWatchToCache {wl : List Watch} (h : CacheOk wl) {n : ℕ} {p : Path}
    (hfresh : view wl n = none) :
    view (addWatchToCache wl n p).1 = Function.update (view wl) n (some (strncpy PATH_MAX p)) := by
  have hne := findWatch_none.mp ((findWatch_eq_none h).mpr hfresh)
  have hok := h.addWatchToCache p hne
  obtain ⟨-, hslot, hmem⟩ := findEmptyCacheSlot_spec h
  have hlt := (List.getElem?_eq_some_iff.mp hslot).1
  refine view_ext fun m q => ?_
  rw [view_eq_some hok]
  simp only [addWatchToCache]
  rw [mem_set_iff hlt]
  have hrest : (∃ i, i ≠ (findEmptyCacheSlot wl).2 ∧
      (findEmptyCacheSlot wl).1[i]? = some ⟨m, q⟩) ↔ (⟨m, q⟩ : Watch) ∈ wl := by
    rw [← hmem _ (Int.natCast_nonneg m), List.mem_iff_getElem?]
    refine exists_congr fun i => and_iff_right_of_imp ?_
    rintro hi rfl
    exact ne_emptySlot m q (Option.some.inj (hi.symm.trans hslot))
  rw [hrest, ← view_eq_some h]
  by_cases hmn : m = n
  · subst hmn
    simp [hfresh, eq_comm]
  · simp [hmn]

theorem view_markCacheSlotEmpty {wl : List Watch} (h : CacheOk wl) {n j : ℕ} {p : Path}
    (hj : wl[j]? = some ⟨n, p⟩) :
    view (markCacheSlotEmpty wl j) = Function.update (view wl) n none := by
  refine view_ext fun m q => ?_
  rw [view_eq_some (h.markCacheSlotEmpty j), markCacheSlotEmpty,
    mem_set_iff (List.getElem?_eq_some_iff.mp hj).1]
  rw [or_iff_right (ne_emptySlot m q)]
  by_cases hmn : m = n
  · subst hmn
    rw [Function.update_self]
    simp only [reduceCtorEq, iff_false]
    rintro ⟨i, hij, hi⟩
    exact hij (h.distinct i j _ _ hi hj (Int.natCast_nonneg m) rfl)
  · rw [Function.update_of_ne hmn, view_eq_some h, List.mem_iff_getElem?]
    refine exists_congr fun i => and_iff_right_of_imp ?_
    rintro hi rfl
    have he := congrArg Watch.wd (Option.some.inj (hi.symm.trans hj))
    exact hmn (Int.ofNat.inj he)

theorem view_rewriteCachedPaths (wl : List Watch) (p : Path) (n : Name) (q : Path) (m : Name) :
    view (rewriteCachedPaths wl p n q m) =
      fun k => (view wl k).map (rewritePath (entryPath p n) (entryPath q m)) := by
  funext k
  simp only [view, rewriteCachedPaths, List.find?_map, Option.map_map, Function.comp_def]

end Tlpi.Inotify
