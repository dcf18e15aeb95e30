import Mathlib.Tactic
import Tlpi.Inotify.CacheInvariant
import Tlpi.Inotify.Linux

/-! What the traversals of `watchSubtree()` and `zapSubtree()` do to the cache and to the watches on
the kernel of `Linux`: directories that have no watch get one with a slot, and a subtree loses its
watches and slots. -/

namespace Tlpi.Inotify
open Lib

variable {root : Path} {L : Choices} {d d' : Dtree (World root)} {xs : List (Dir Name)}

/-! ## New watches -/

/-- The cache knows the watches on the tree, and no descriptor that has not been given out. -/
structure Cached (d : Dtree (World root)) : Prop where
  cache : CacheOk d.wlCache
  used : ∀ wd p, view d.wlCache wd = some p → wd ∈ d.kernel.watches.used
  owned : ∀ x ∈ d.kernel.tree.dirs, ∀ wd, d.kernel.watches.owner wd = some x.ino →
    view d.wlCache wd ≠ none

/-- From `d` to `d'` the directories `xs` have got watches and slots, unless they had them. -/
structure Watched (d d' : Dtree (World root)) (xs : List (Dir Name)) : Prop where
  kernel : d'.kernel = d.kernel.withWatches d'.kernel.watches
  roots : d'.rootDirPaths = d.rootDirPaths
  cached : Cached d'
  used : ∀ wd ∈ d.kernel.watches.used, wd ∈ d'.kernel.watches.used
  old : ∀ wd ∈ d.kernel.watches.used, d'.kernel.watches.owner wd = d.kernel.watches.owner wd ∧
    view d'.wlCache wd = view d.wlCache wd
  new : ∀ wd ∉ d.kernel.watches.used, ∀ i, d'.kernel.watches.owner wd = some i → ∃ x ∈ xs, x.ino = i
  new_view : ∀ wd ∉ d.kernel.watches.used, ∀ p, view d'.wlCache wd = some p ↔
    ∃ x ∈ xs, d'.kernel.watches.owner wd = some x.ino ∧ dirPath root x = p
  all : ∀ x ∈ xs, ∃ wd, d'.kernel.watches.owner wd = some x.ino

theorem Watched.tree (h : Watched d d' xs) : d'.kernel.tree = d.kernel.tree := by
  rw [h.kernel]
  rfl

theorem Watched.queue (h : Watched d d' xs) : d'.kernel.queue = d.kernel.queue := by
  rw [h.kernel]
  rfl

theorem Watched.refl (h : Cached d) : Watched d d [] where
  kernel := rfl
  roots := rfl
  cached := h
  used _ := id
  old _ _ := ⟨rfl, rfl⟩
  new wd hwd i hi := absurd (d.kernel.watches.owner_used wd i hi) hwd
  new_view wd hwd p := by
    simp only [List.not_mem_nil, false_and, exists_false, iff_false]
    exact fun hp => hwd (h.used wd p hp)
  all := by simp

/-- A new watch on `y`, and its slot. -/
def Dtree.watch (d : Dtree (World root)) (wd : ℕ) (y : Dir Name)
    (h : d.kernel.watches.find y.ino = none) : Dtree (World root) :=
  Dtree.addSlot { d with kernel := d.kernel.withWatches (d.kernel.watches.add wd y.ino h) } wd
    (dirPath root y)

theorem watch_owner (d : Dtree (World root)) (wd : ℕ) (y : Dir Name)
    (h : d.kernel.watches.find y.ino = none) : (d.watch wd y h).kernel.watches.owner =
      Function.update d.kernel.watches.owner wd (some y.ino) := rfl

theorem Cached.view_eq_none (h : Cached d) {wd : ℕ} (hwd : wd ∉ d.kernel.watches.used) :
    view d.wlCache wd = none := by
  by_contra hne
  obtain ⟨p, hp⟩ := Option.ne_none_iff_exists'.mp hne
  exact hwd (h.used wd p hp)

section New

variable (h : Cached d) {wd : ℕ} {y : Dir Name} (hy : y ∈ d.kernel.tree.dirs)
  (hwd : wd ∉ d.kernel.watches.used) (hfree : d.kernel.watches.find y.ino = none)
include h hy hwd

theorem view_watch : view (d.watch wd y hfree).wlCache =
    Function.update (view d.wlCache) wd (some (dirPath root y)) := by
  change view (addWatchToCache d.wlCache wd (dirPath root y)).1 = _
  rw [view_addWatchToCache h.cache (h.view_eq_none hwd),
    strncpy_of_le (d.kernel.nameable y hy).2.le]

theorem Cached.watch : Cached (d.watch wd y hfree) := by
  have hview := view_watch h hy hwd hfree
  refine ⟨?_, fun v p hp => ?_, fun x hx v hv => ?_⟩
  · have hnone := (findWatch_eq_none h.cache).mpr (h.view_eq_none hwd)
    exact h.cache.addWatchToCache _ (findWatch_none.mp hnone)
  · by_cases hv : v = wd
    · exact hv ▸ List.mem_cons_self
    · rw [hview, Function.update_of_ne hv] at hp
      exact List.mem_cons_of_mem _ (h.used v p hp)
  · rw [hview]
    by_cases hvw : v = wd
    · simp [hvw]
    · rw [watch_owner, Function.update_of_ne hvw] at hv
      rw [Function.update_of_ne hvw]
      exact h.owned x hx v hv

end New

theorem mem_tree_of_mem_append {t : DirTree Name} {x y : Dir Name} (hy : y ∈ t.dirs)
    (hxs : ∀ x ∈ xs, x ∈ t.dirs) (hx : x ∈ xs ++ [y]) : x ∈ t.dirs := by
  rcases List.mem_append.mp hx with hx | hx
  · exact hxs x hx
  · rwa [List.mem_singleton.mp hx]

section Step

variable (h : Watched d d' xs) {y : Dir Name} (hy : y ∈ d.kernel.tree.dirs)
  (hxs : ∀ x ∈ xs, x ∈ d.kernel.tree.dirs)
include h hy hxs

theorem Watched.found {wd : ℕ} (hwd : d'.kernel.watches.owner wd = some y.ino) :
    Watched d d' (xs ++ [y]) where
  kernel := h.kernel
  roots := h.roots
  cached := h.cached
  used := h.used
  old := h.old
  new v hv i hi := by
    obtain ⟨x, hx, rfl⟩ := h.new v hv i hi
    exact ⟨x, by simp [hx], rfl⟩
  new_view v hv p := by
    rw [h.new_view v hv p]
    constructor
    · rintro ⟨x, hx, hp⟩
      exact ⟨x, by simp [hx], hp⟩
    · rintro ⟨x, hx, ho, hp⟩
      -- the watch is new, so the directory is one of those that have been visited before
      obtain ⟨z, hz, hino⟩ := h.new v hv x.ino ho
      have hxt := mem_tree_of_mem_append hy hxs hx
      exact ⟨x, d.kernel.tree.ino_inj z (hxs z hz) x hxt hino ▸ hz, ho, hp⟩
  all x hx := by
    rcases List.mem_append.mp hx with hx | hx
    · exact h.all x hx
    · rw [List.mem_singleton.mp hx]
      exact ⟨wd, hwd⟩

theorem Watched.added {wd : ℕ} (hwd : wd ∉ d'.kernel.watches.used)
    (hfree : d'.kernel.watches.find y.ino = none) :
    Watched d (d'.watch wd y hfree) (xs ++ [y]) := by
  have hview := view_watch h.cached (h.tree ▸ hy) hwd hfree
  have howner := watch_owner d' wd y hfree
  have hne {v : ℕ} (hv : v ∈ d'.kernel.watches.used) : v ≠ wd := fun he => hwd (he ▸ hv)
  have hunwatched := Watches.find_eq_none.mp hfree
  have hkernel := congrArg (World.withWatches · (d'.kernel.watches.add wd y.ino hfree)) h.kernel
  refine {
    kernel := hkernel
    roots := h.roots
    cached := h.cached.watch (h.tree ▸ hy) hwd hfree
    used := fun v hv => List.mem_cons_of_mem _ (h.used v hv)
    old := fun v hv => ?old
    new := fun v hv i hi => ?new
    new_view := fun v hv p => ?new_view
    all := fun x hx => ?all }
  case old =>
    have hvw := hne (h.used v hv)
    rw [howner, hview, Function.update_of_ne hvw, Function.update_of_ne hvw]
    exact h.old v hv
  case new =>
    by_cases hvw : v = wd
    · rw [howner, hvw, Function.update_self] at hi
      exact ⟨y, by simp, Option.some.inj hi⟩
    · rw [howner, Function.update_of_ne hvw] at hi
      obtain ⟨x, hx, hxi⟩ := h.new v hv i hi
      exact ⟨x, by simp [hx], hxi⟩
  case new_view =>
    rw [howner, hview]
    by_cases hvw : v = wd
    · rw [hvw, Function.update_self, Function.update_self]
      constructor
      · rintro ⟨⟩
        exact ⟨y, by simp, rfl, rfl⟩
      · rintro ⟨x, hx, hi, rfl⟩
        rw [d.kernel.tree.ino_inj y hy x (mem_tree_of_mem_append hy hxs hx) (Option.some.inj hi)]
    · rw [Function.update_of_ne hvw, Function.update_of_ne hvw, h.new_view v hv p]
      constructor
      · rintro ⟨x, hx, hp⟩
        exact ⟨x, by simp [hx], hp⟩
      · rintro ⟨x, hx, hi, hp⟩
        rcases List.mem_append.mp hx with hx | hx
        · exact ⟨x, hx, hi, hp⟩
        · rw [List.mem_singleton.mp hx] at hi
          exact absurd hi (hunwatched v)
  case all =>
    rcases List.mem_append.mp hx with hx | hx
    · obtain ⟨v, hv⟩ := h.all x hx
      refine ⟨v, ?_⟩
      rw [howner, Function.update_of_ne (hne (d'.kernel.watches.owner_used v _ hv)), hv]
    · rw [List.mem_singleton.mp hx]
      exact ⟨wd, by rw [howner, Function.update_self]⟩

theorem Watched.traverseTree :
    ∃ d'', traverseTree (linux L root) d' (dirPath root y, true) = .ok d'' ∧
    Watched d d'' (xs ++ [y]) := by
  have hyt : y ∈ d'.kernel.tree.dirs := h.tree ▸ hy
  have hlook : d'.kernel.lookup (dirPath root y) = some y := World.lookup_eq_some.mpr ⟨hyt, rfl⟩
  unfold Inotify.traverseTree
  simp only [linux, Bool.true_eq_false, if_false]
  cases hfind : d'.kernel.watches.find y.ino with
  | some wd =>
    have hwd := Watches.find_eq_some.mp hfind
    have hslot : (findWatch d'.wlCache wd).isSome = true := by
      rw [Option.isSome_iff_ne_none, Ne, findWatch_eq_none h.cached.cache]
      exact h.cached.owned y hyt wd hwd
    rw [World.addWatch_found hlook hfind]
    simp only [hslot, if_true]
    exact ⟨d', rfl, h.found hy hxs hwd⟩
  | none =>
    have hfresh := L.fresh d'.kernel.watches.used
    have hslot : (findWatch d'.wlCache (L.next d'.kernel.watches.used)).isSome = false := by
      rw [Option.isSome_eq_false_iff, Option.isNone_iff_eq_none, findWatch_eq_none h.cached.cache]
      exact h.cached.view_eq_none hfresh
    rw [World.addWatch_new hlook hfind]
    simp only [hslot, Bool.false_eq_true, if_false]
    exact ⟨_, rfl, h.added hy hxs hfresh hfind⟩

end Step

/-- The directories at or below a pathname. -/
def subtreeAt (w : World root) (p : Path) (x : Dir Name) : Prop :=
  ∃ t ∈ w.tree.dirs, dirPath root t = p ∧ t.comps <+: x.comps

theorem Cached.watchSubtree (h : Cached d) (p : Path) :
    ∃ d' xs, watchSubtree (linux L root) d p = .ok d' ∧ Watched d d' xs ∧
      ∀ x, x ∈ xs ↔ x ∈ d.kernel.tree.dirs ∧ subtreeAt d.kernel p x := by
  unfold Inotify.watchSubtree
  simp only [linux, World.nftw]
  cases hlook : d.kernel.lookup p with
  | none =>
    refine ⟨d, [], rfl, Watched.refl h, fun x => ?_⟩
    simp only [List.not_mem_nil, false_iff]
    rintro ⟨-, t, ht, hp, -⟩
    rw [World.lookup_eq_some.mpr ⟨ht, hp⟩] at hlook
    cases hlook
  | some t =>
    obtain ⟨ht, hp⟩ := World.lookup_eq_some.mp hlook
    have hmem (x : Dir Name) :
        x ∈ L.order (d.kernel.tree.dirs.filter fun y => t.comps <+: y.comps) ↔
        x ∈ d.kernel.tree.dirs ∧ t.comps <+: x.comps := by
      rw [(L.perm _).mem_iff]
      simp
    obtain ⟨d', hd', hw⟩ := foldlM_ok
      (f := fun d y => traverseTree (linux L root) d (dirPath root y, true))
      (P := fun xs d' => (∀ x ∈ xs, x ∈ d.kernel.tree.dirs) ∧ Watched d d' xs)
      (l := L.order (d.kernel.tree.dirs.filter fun y => t.comps <+: y.comps))
      (fun done y hy d' hd' => by
        have hyt := ((hmem y).mp hy).1
        obtain ⟨d'', hd'', hw⟩ := hd'.2.traverseTree hyt hd'.1
        exact ⟨d'', hd'', fun x => mem_tree_of_mem_append hyt hd'.1, hw⟩)
      ⟨by simp, Watched.refl h⟩
    refine ⟨d', _, ?_, hw.2, fun x => ?_⟩
    · rw [List.foldlM_map]
      exact hd'
    · rw [hmem]
      refine and_congr_right fun hx => ⟨fun hpre => ⟨t, ht, hp, hpre⟩, ?_⟩
      rintro ⟨s, hs, hps, hpre⟩
      rwa [World.path_inj hs ht (hps.trans hp.symm)] at hpre

/-- The cache maps the watches of the directories to their pathnames, and every directory is
watched. -/
structure InStep (d : Dtree (World root)) : Prop where
  cache : CacheOk d.wlCache
  view : ∀ wd p, view d.wlCache wd = some p ↔
    ∃ x ∈ d.kernel.tree.dirs, d.kernel.watches.owner wd = some x.ino ∧ dirPath root x = p
  watched : ∀ x ∈ d.kernel.tree.dirs, ∃ wd, d.kernel.watches.owner wd = some x.ino

/-- The first traversal finds every directory. -/
theorem reinitialize_linux (w : World root) :
    ∃ d', reinitialize (linux L root) (started [root] w) = .ok d' ∧ InStep d' ∧
      d'.rootDirPaths = [some root] ∧ d'.kernel.queue = [] := by
  have hempty : Cached { (started [root] w).freeCache with kernel := (linux L root).reopen w } := by
    refine ⟨cacheOk_nil, fun wd p hp => ?_, fun x _ wd hwd => ?_⟩
    · cases hp
    · cases hwd
  obtain ⟨d', xs, hd', hw, hxs⟩ := @Cached.watchSubtree _ L _ hempty root
  have hall (x : Dir Name) : x ∈ xs ↔ x ∈ d'.kernel.tree.dirs := by
    rw [hxs, hw.tree]
    refine and_iff_left_of_imp fun hx => ?_
    obtain ⟨t, ht, htop⟩ := w.tree.has_root
    exact ⟨t, ht, by rw [dirPath, htop]; rfl, htop ▸ List.nil_prefix⟩
  refine ⟨d', ?_, ⟨hw.cached.cache, fun wd p => ?_, fun x hx => hw.all x ((hall x).mpr hx)⟩,
    hw.roots,
    hw.queue⟩
  · have hfold := congrArg (fun r => r >>= pure) hd'
    exact hfold
  · rw [hw.new_view wd List.not_mem_nil p]
    simp only [hall]

/-! ## Removed watches -/

/-- From `d` to `d'` what is at or below `pn` has lost its watches and slots. -/
structure ZappedBelow (pn : Path) (d d' : Dtree (World root)) : Prop where
  cache : CacheOk d'.wlCache
  roots : d'.rootDirPaths = d.rootDirPaths
  tree : d'.kernel.tree = d.kernel.tree
  used : d'.kernel.watches.used = d.kernel.watches.used
  view : ∀ v p, view d'.wlCache v = some p ↔ view d.wlCache v = some p ∧ ¬ atOrBelow pn p
  owner : ∀ v i, d'.kernel.watches.owner v = some i ↔
    d.kernel.watches.owner v = some i ∧ ∀ p, Inotify.view d.wlCache v = some p → ¬ atOrBelow pn p
  queue : ∃ vs : List ℕ,
    d'.kernel.queue = d.kernel.queue ++ (vs.map Notice.ignored).flatMap Notice.events

structure ZapsSlots (pn : Path) (c : List Watch) (w : World root) (z : Zapped (World root)) :
    Prop where
  ok : z.ok = true
  cache : z.cache = c.map fun s => if Matches pn s then emptySlot else s
  tree : z.kernel.tree = w.tree
  used : z.kernel.watches.used = w.watches.used
  owner : ∀ v i, z.kernel.watches.owner v = some i ↔
    w.watches.owner v = some i ∧ ∀ s ∈ c, s.wd = v → ¬ Matches pn s
  queue : ∃ vs : List ℕ, z.kernel.queue = w.queue ++ (vs.map Notice.ignored).flatMap Notice.events

theorem ZapsSlots.skip {pn : Path} {s : Watch} {c : List Watch} {w : World root}
    {z : Zapped (World root)} (hm : ¬ Matches pn s) (hz : ZapsSlots pn c w z) :
    ZapsSlots pn (s :: c) w { z with cache := s :: z.cache } where
  ok := hz.ok
  cache := by simp [hz.cache, hm]
  tree := hz.tree
  used := hz.used
  owner v i := by
    rw [hz.owner v i]
    simp [hm]
  queue := hz.queue

theorem ZapsSlots.zap {pn : Path} {s : Watch} {c : List Watch} {w : World root} {j : ℕ}
    {z : Zapped (World root)} (hm : Matches pn s) (hz : ZapsSlots pn c (w.unwatch s.wd.toNat) z) :
    ZapsSlots pn (s :: c) w { z with cache := emptySlot :: z.cache, slots := j :: z.slots } where
  ok := hz.ok
  cache := by simp [hz.cache, hm]
  tree := hz.tree
  used := hz.used
  owner v i := by
    have hwd : s.wd = v ↔ v = s.wd.toNat := by
      have := hm.1
      omega
    have hrm : (w.unwatch s.wd.toNat).watches.owner v = some i ↔
        v ≠ s.wd.toNat ∧ w.watches.owner v = some i := Watches.owner_remove
    rw [hz.owner v i, hrm, List.forall_mem_cons, hwd]
    simp only [hm, not_true_eq_false, imp_false]
    tauto
  queue := by
    obtain ⟨vs, hvs⟩ := hz.queue
    exact ⟨s.wd.toNat :: vs, by simpa [World.unwatch] using hvs⟩

theorem zapSlots_linux (pn : Path) (j : ℕ) {c : List Watch} {w : World root}
    (hlive : ∀ s ∈ c, Matches pn s → (w.watches.owner s.wd.toNat).isSome = true)
    (hdist : c.Pairwise fun s t => 0 ≤ s.wd → s.wd ≠ t.wd) :
    ZapsSlots pn c w (zapSlots (linux L root) pn j c w) := by
  induction c generalizing j w with
  | nil => exact ⟨rfl, rfl, rfl, rfl, by simp [zapSlots], [], by simp [zapSlots]⟩
  | cons s c ih =>
    obtain ⟨hs, hdist⟩ := List.pairwise_cons.mp hdist
    rw [zapSlots]
    by_cases hm : Matches pn s
    · have hrm : (linux L root).rmWatch w s.wd = (w.unwatch s.wd.toNat, true) :=
        if_pos ⟨hm.1, hlive s List.mem_cons_self hm⟩
      rw [if_pos (show 0 ≤ s.wd ∧ atOrBelow pn s.path = true from hm), hrm, if_pos rfl]
      refine (ih (j + 1) (fun t ht htm => ?_) hdist).zap hm
      have hne : t.wd.toNat ≠ s.wd.toNat := by
        have := hs t ht hm.1
        have := hm.1
        have := htm.1
        omega
      change (Function.update w.watches.owner s.wd.toNat none t.wd.toNat).isSome = true
      rw [Function.update_of_ne hne]
      exact hlive t (List.mem_cons_of_mem _ ht) htm
    · rw [if_neg (show ¬ (0 ≤ s.wd ∧ atOrBelow pn s.path = true) from hm)]
      exact (ih (j + 1) (fun t ht => hlive t (List.mem_cons_of_mem _ ht)) hdist).skip hm

theorem CacheOk.pairwise {c : List Watch} (h : CacheOk c) :
    c.Pairwise fun s t => 0 ≤ s.wd → s.wd ≠ t.wd := by
  rw [List.pairwise_iff_getElem]
  intro i j hi hj hij hpos he
  exact hij.ne (h.distinct i j _ _ (List.getElem?_eq_getElem hi)
    (List.getElem?_eq_getElem hj) hpos he)

/-- Watches that are in the cache are live, so none of them stops the loop. -/
theorem zapSubtree_linux (h : CacheOk d.wlCache) (pn : Path)
    (hlive : ∀ v p, view d.wlCache v = some p → (d.kernel.watches.owner v).isSome = true) :
    ∃ d', zapSubtree (linux L root) d pn = (d', true) ∧ ZappedBelow pn d d' := by
  have hz := zapSlots_linux (L := L) pn 0 (w := d.kernel) (fun s hs hm => by
    obtain ⟨n, hn⟩ := Int.eq_ofNat_of_zero_le hm.1
    have hv : view d.wlCache n = some s.path := (view_eq_some h).mpr (hn ▸ hs)
    rw [hn]
    exact hlive n s.path hv) h.pairwise
  have hcache := h.of_emptied (@zapSlots_getElem? _ (linux L root) pn 0 d.wlCache d.kernel)
  refine ⟨(zapSubtree (linux L root) d pn).1, Prod.ext rfl hz.ok, hcache, rfl, hz.tree, hz.used,
    fun v p => ?_, fun v i => ?_, hz.queue⟩
  · change view (zapSlots (linux L root) pn 0 d.wlCache d.kernel).cache v = some p ↔ _
    rw [view_eq_some hcache, view_eq_some h, hz.cache, List.mem_map]
    constructor
    · rintro ⟨s, hs, he⟩
      split_ifs at he with hm
      · exact absurd he.symm (ne_emptySlot v p)
      · subst he
        exact ⟨hs, fun hp => hm ⟨Int.natCast_nonneg v, hp⟩⟩
    · rintro ⟨hs, hp⟩
      exact ⟨_, hs, if_neg fun hm => hp hm.2⟩
  · refine (hz.owner v i).trans (and_congr_right fun _ => ?_)
    constructor
    · intro hall p hp hbelow
      exact hall _ ((view_eq_some h).mp hp) rfl ⟨Int.natCast_nonneg v, hbelow⟩
    · rintro hall ⟨wd, p⟩ hs rfl hm
      exact hall p ((view_eq_some h).mpr hs) hm.2

end Tlpi.Inotify
