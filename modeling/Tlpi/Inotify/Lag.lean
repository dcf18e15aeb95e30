import Mathlib.Tactic
import Tlpi.Inotify.Rounds

/-! The cache while events are pending. What the cache will be after all pending notices, as far as
they only change its own entries, agrees with the watches on the tree as it is now; a directory
without a watch in a watched directory has a notice that will find it. -/

namespace Tlpi.Inotify
open Lib

/-! ## Pending notices -/

def replay (V : View) (Q : List Notice) : View := Q.foldl Notice.apply V

/-- Every notice finds the descriptors it needs when its turn comes. -/
def Ready (root : Path) : View → List Notice → Prop
  | _, [] => True
  | V, q :: Q => q.Enabled root V ∧ Ready root (q.apply V) Q

section Replay

variable {root : Path} {V W : View} {q : Notice} {Q R : List Notice} {v : ℕ} {p : Path}

@[simp] theorem replay_nil : replay V [] = V := rfl

@[simp] theorem replay_cons : replay V (q :: Q) = replay (q.apply V) Q := rfl

@[simp] theorem replay_append : replay V (Q ++ R) = replay (replay V Q) R := List.foldl_append

theorem ready_append : Ready root V (Q ++ R) ↔ Ready root V Q ∧ Ready root (replay V Q) R := by
  induction Q generalizing V with
  | nil => simp [Ready]
  | cons q Q ih => simp [Ready, ih, and_assoc]

theorem apply_of_appeared (hq : q.isAppeared = true) : q.apply V = V := by
  cases q with
  | appeared wd name cookie => rfl
  | _ => cases hq

theorem apply_eq_none (h : V v = none) : q.apply V v = none := by
  cases q with
  | renamed wd name wd' name' cookie =>
    cases hp : V wd <;> cases hp' : V wd' <;> simp [Notice.apply, hp, hp', h]
  | deleteSelf wd =>
    rw [Notice.apply]
    by_cases hv : v = wd <;> simp [hv, h]
  | _ => exact h

theorem replay_eq_none (h : V v = none) : replay V Q v = none := by
  induction Q generalizing V with
  | nil => exact h
  | cons q Q ih => exact ih (apply_eq_none h)

theorem Ready.deleteSelf_mem (h : Ready root V Q) (hd : .deleteSelf v ∈ Q) : V v ≠ none := by
  induction Q generalizing V with
  | nil => cases hd
  | cons q Q ih =>
    rcases List.mem_cons.mp hd with rfl | hd
    · obtain ⟨p, hp, -⟩ := h.1
      simp [hp]
    · exact fun hnone => ih h.2 hd (apply_eq_none hnone)

theorem apply_of_not_renamed (hq : q.isRenamed = false) :
    q.apply V v = if q = .deleteSelf v then none else V v := by
  cases q with
  | renamed wd name wd' name' cookie => cases hq
  | deleteSelf wd =>
    rw [Notice.apply]
    by_cases hv : v = wd
    · simp [hv]
    · simp [hv, Ne.symm hv]
  | _ => simp [Notice.apply]

/-- Without renames every entry is kept or deleted. -/
theorem replay_of_not_renamed (hQ : ∀ q ∈ Q, q.isRenamed = false) :
    replay V Q v = if .deleteSelf v ∈ Q then none else V v := by
  induction Q generalizing V with
  | nil => simp
  | cons q Q ih =>
    rw [replay_cons, ih fun r hr => hQ r (List.mem_cons_of_mem _ hr),
      apply_of_not_renamed (hQ q List.mem_cons_self)]
    by_cases hq : q = .deleteSelf v
    · simp [hq]
    · simp [hq, Ne.symm hq]

theorem replay_some_of_not_renamed (hQ : ∀ q ∈ Q, q.isRenamed = false)
    (h : replay V Q v = some p) : V v = some p := by
  rw [replay_of_not_renamed hQ] at h
  split_ifs at h
  exact h

/-- The entries of `V` are among those of `W`. -/
def View.Sub (V W : View) : Prop := ∀ v p, V v = some p → W v = some p

theorem View.Sub.ne_none (h : View.Sub V W) (hv : V v ≠ none) : W v ≠ none := by
  obtain ⟨p, hp⟩ := Option.ne_none_iff_exists'.mp hv
  simp [h v p hp]

theorem Notice.Enabled.mono (h : View.Sub V W) (hq : q.Enabled root V) : q.Enabled root W := by
  cases q with
  | appeared wd name cookie => exact h.ne_none hq
  | movedOut wd name cookie => exact hq
  | renamed wd name wd' name' cookie => exact ⟨h.ne_none hq.1, h.ne_none hq.2⟩
  | deleteSelf wd =>
    obtain ⟨p, hp, hne⟩ := hq
    exact ⟨p, h wd p hp, hne⟩
  | ignored wd => trivial

theorem View.Sub.apply (h : View.Sub V W) (hq : q.Enabled root V) :
    View.Sub (q.apply V) (q.apply W) := by
  cases q with
  | renamed wd name wd' name' cookie =>
    obtain ⟨p, hp⟩ := Option.ne_none_iff_exists'.mp hq.1
    obtain ⟨p', hp'⟩ := Option.ne_none_iff_exists'.mp hq.2
    intro v r hr
    simp only [Notice.apply, hp, hp', h wd p hp, h wd' p' hp', Option.map_eq_some_iff] at hr ⊢
    obtain ⟨s, hs, rfl⟩ := hr
    exact ⟨s, h v s hs, rfl⟩
  | deleteSelf wd =>
    intro v r hr
    rw [Notice.apply] at hr ⊢
    by_cases hv : v = wd
    · simp [hv] at hr
    · rw [Function.update_of_ne hv] at hr ⊢
      exact h v r hr
  | _ => exact h

theorem Ready.mono (h : View.Sub V W) (hQ : Ready root V Q) : Ready root W Q := by
  induction Q generalizing V W with
  | nil => trivial
  | cons q Q ih => exact ⟨hQ.1.mono h, ih (h.apply hQ.1) hQ.2⟩

end Replay

/-! ## The invariant -/

structure Lag {root : Path} (d : Dtree (World root)) (Q : List Notice) : Prop where
  cache : CacheOk d.wlCache
  roots : d.rootDirPaths = [some root]
  used : ∀ wd p, view d.wlCache wd = some p → wd ∈ d.kernel.watches.used
  mirror : ∀ wd p, replay (view d.wlCache) Q wd = some p ↔
    ∃ x ∈ d.kernel.tree.dirs, d.kernel.watches.owner wd = some x.ino ∧ dirPath root x = p
  top : ∀ x ∈ d.kernel.tree.dirs, x.comps = [] → ∃ wd, d.kernel.watches.owner wd = some x.ino
  pending : ∀ x ∈ d.kernel.tree.dirs, ∀ y ∈ d.kernel.tree.dirs, ∀ n wd, x.comps = y.comps ++ [n] →
    d.kernel.watches.owner wd = some y.ino → d.kernel.watches.find x.ino = none →
    ∃ Q₁ cookie Q₂, Q = Q₁ ++ .appeared wd n cookie :: Q₂ ∧
      ∀ v, replay (view d.wlCache) Q₁ v ≠ some (dirPath root x)
  ready : Ready root (view d.wlCache) Q
  order : Q.Pairwise fun q r => q.isAppeared = true → r.isRenamed = false

variable {root : Path} {L : Choices} {cfg : Config} {d d' : Dtree (World root)} {q : Notice}
  {Q : List Notice} {x y : Dir Name}

/-- When every directory has a watch, none has to be found. -/
theorem lag_of_all_watched (hcache : CacheOk d.wlCache) (hroots : d.rootDirPaths = [some root])
    (hused : ∀ wd p, view d.wlCache wd = some p → wd ∈ d.kernel.watches.used)
    (hmirror : ∀ wd p, replay (view d.wlCache) Q wd = some p ↔
      ∃ x ∈ d.kernel.tree.dirs, d.kernel.watches.owner wd = some x.ino ∧ dirPath root x = p)
    (hall : ∀ x ∈ d.kernel.tree.dirs, ∃ wd, d.kernel.watches.owner wd = some x.ino)
    (hready : Ready root (view d.wlCache) Q)
    (horder : Q.Pairwise fun q r => q.isAppeared = true → r.isRenamed = false) : Lag d Q where
  cache := hcache
  roots := hroots
  used := hused
  mirror := hmirror
  top x hx _ := hall x hx
  pending x hx _ _ _ _ _ _ hnone := by
    obtain ⟨wd, hwd⟩ := hall x hx
    exact absurd hwd (Watches.find_eq_none.mp hnone wd)
  ready := hready
  order := horder

theorem Lag.cached (h : Lag d Q) : Cached d where
  cache := h.cache
  used := h.used
  owned x hx wd hwd hnone := by
    have hsome := (h.mirror wd (dirPath root x)).mpr ⟨x, hx, hwd, rfl⟩
    rw [replay_eq_none hnone] at hsome
    cases hsome

theorem Lag.not_renamed (h : Lag d (q :: Q)) (hq : q.isAppeared = true) :
    ∀ r ∈ Q, r.isRenamed = false := fun r hr => (List.pairwise_cons.mp h.order).1 r hr hq

theorem Lag.ready_tail (h : Lag d (q :: Q)) (hq : q.isAppeared = true) :
    Ready root (view d.wlCache) Q := by
  have hready := h.ready.2
  rwa [apply_of_appeared hq] at hready

theorem valid_of_has {w : World root} {cs : List Name} (h : w.tree.Has cs) :
    ∀ n ∈ cs, ValidName n := by
  obtain ⟨x, hx, rfl⟩ := h
  exact (w.nameable x hx).1

/-- The buffers are large enough for the pathnames of the directories of the tree. -/
theorem snprintf_of_has {w : World root} {cs : List Name} {n : Name} (h : w.tree.Has (cs ++ [n]))
    {size : ℕ} (hsize : PATH_MAX ≤ size) :
    snprintf size (pathOf root cs ++ '/' :: n) = pathOf root (cs ++ [n]) := by
  have hvalid := valid_of_has h
  obtain ⟨x, hx, hxc⟩ := h
  have hlen := (w.nameable x hx).2
  rw [dirPath, hxc, pathOf_snoc w.noSlash (fun m hm => hvalid m (List.mem_append_left _ hm))
    (hvalid n (by simp))] at *
  exact snprintf_of_lt (hlen.trans_le hsize)

/-- The notice of a directory that is in the tree has its pathname, since no rename is pending. -/
theorem Lag.appeared_path {wd : ℕ} {n : Name} {cookie : Option ℕ} {p : Path}
    (h : Lag d (.appeared wd n cookie :: Q)) (hx : x ∈ d.kernel.tree.dirs)
    (hy : y ∈ d.kernel.tree.dirs) (hn : x.comps = y.comps ++ [n])
    (hwd : d.kernel.watches.owner wd = some y.ino) (hp : view d.wlCache wd = some p) :
    eventPath p n = dirPath root x := by
  have hsome := (h.mirror wd (dirPath root y)).mpr ⟨y, hy, hwd, rfl⟩
  have hview := replay_some_of_not_renamed (h.not_renamed rfl) hsome
  obtain rfl : p = dirPath root y := Option.some.inj (hp.symm.trans hview)
  rw [eventPath, dirPath, dirPath, hn]
  exact snprintf_of_has ⟨x, hx, hn⟩ (by simp)

/-! ## Handling a notice -/

/-- The notice that will find a directory is the first one or a later one. -/
theorem Lag.pending_cons (h : Lag d (q :: Q)) (hx : x ∈ d.kernel.tree.dirs)
    (hy : y ∈ d.kernel.tree.dirs) {n : Name} {wd : ℕ} (hn : x.comps = y.comps ++ [n])
    (hwd : d.kernel.watches.owner wd = some y.ino) (hfree : d.kernel.watches.find x.ino = none) :
    (∃ cookie, q = .appeared wd n cookie ∧ ∀ v, view d.wlCache v ≠ some (dirPath root x)) ∨
      ∃ Q₁ cookie Q₂, Q = Q₁ ++ .appeared wd n cookie :: Q₂ ∧
        ∀ v, replay (q.apply (view d.wlCache)) Q₁ v ≠ some (dirPath root x) := by
  obtain ⟨Q₁, cookie, Q₂, hsplit, hpath⟩ := h.pending x hx y hy n wd hn hwd hfree
  cases Q₁ with
  | nil => exact .inl ⟨cookie, (List.cons.inj hsplit).1, hpath⟩
  | cons r Q₁ =>
    obtain ⟨rfl, hQ⟩ := List.cons.inj hsplit
    exact .inr ⟨Q₁, cookie, Q₂, hQ, hpath⟩

theorem Lag.applied (h : Lag d (q :: Q)) (hq : q.isAppeared = false) (hd : Applied q d d') :
    Lag d' Q where
  cache := hd.cache
  roots := hd.roots.trans h.roots
  used wd p hp := by
    rw [hd.kernel]
    rw [hd.view] at hp
    by_contra hwd
    rw [apply_eq_none (h.cached.view_eq_none hwd)] at hp
    cases hp
  mirror wd p := by
    rw [hd.view, hd.kernel]
    exact h.mirror wd p
  top := by
    rw [hd.kernel]
    exact h.top
  pending := by
    rw [hd.kernel, hd.view]
    intro x hx y hy n wd hn hwd hfree
    rcases h.pending_cons hx hy hn hwd hfree with ⟨cookie, rfl, -⟩ | hlater
    · cases hq
    · exact hlater
  ready := by
    rw [hd.view]
    exact h.ready.2
  order := (List.pairwise_cons.mp h.order).2

/-- The directory of the notice is in the cache already. -/
theorem Lag.known {wd : ℕ} {n : Name} {cookie : Option ℕ} {p : Path}
    (h : Lag d (.appeared wd n cookie :: Q)) (hp : view d.wlCache wd = some p)
    (hknown : ∃ v, view d.wlCache v = some (eventPath p n)) : Lag d Q where
  cache := h.cache
  roots := h.roots
  used := h.used
  mirror := h.mirror
  top := h.top
  pending x hx y hy m v hm hv hfree := by
    rcases h.pending_cons hx hy hm hv hfree with ⟨c, ⟨⟩, hpath⟩ | hlater
    · obtain ⟨u, hu⟩ := hknown
      rw [h.appeared_path hx hy hm hv hp] at hu
      exact absurd hu (hpath u)
    · exact hlater
  ready := h.ready.2
  order := (List.pairwise_cons.mp h.order).2

section Watched

variable {xs : List (Dir Name)} (hw : Watched d d' xs)
include hw

theorem Watched.keep {wd i : ℕ} (h : d.kernel.watches.owner wd = some i) :
    d'.kernel.watches.owner wd = some i := by
  rw [(hw.old wd (d.kernel.watches.owner_used wd i h)).1, h]

theorem Watched.find_eq_none {i : ℕ} (h : d'.kernel.watches.find i = none) :
    d.kernel.watches.find i = none := by
  rw [Watches.find_eq_none] at h ⊢
  exact fun wd hwd => h wd (hw.keep hwd)

theorem Watched.sub (hused : ∀ wd p, view d.wlCache wd = some p → wd ∈ d.kernel.watches.used) :
    View.Sub (view d.wlCache) (view d'.wlCache) := fun v p hp => by
  rw [(hw.old v (hused v p hp)).2, hp]

/-- The slots of watches that the program had before stay, also after notices without a rename. -/
theorem Watched.replay_old {R : List Notice} (hR : ∀ r ∈ R, r.isRenamed = false) {v : ℕ}
    (hv : v ∈ d.kernel.watches.used) :
    replay (view d'.wlCache) R v = replay (view d.wlCache) R v := by
  rw [replay_of_not_renamed hR, replay_of_not_renamed hR, (hw.old v hv).2]

/-- A directory that the traversal has not found does not get its pathname into the cache. -/
theorem Watched.replay_ne {R : List Notice} (hR : ∀ r ∈ R, r.isRenamed = false)
    (htree : ∀ x ∈ xs, x ∈ d.kernel.tree.dirs) (hx : x ∈ d.kernel.tree.dirs) (hout : x ∉ xs)
    (hpath : ∀ v, replay (view d.wlCache) R v ≠ some (dirPath root x)) (v : ℕ) :
    replay (view d'.wlCache) R v ≠ some (dirPath root x) := by
  intro hv
  by_cases hvu : v ∈ d.kernel.watches.used
  · rw [hw.replay_old hR hvu] at hv
    exact hpath v hv
  · have hv := replay_some_of_not_renamed hR hv
    obtain ⟨z, hz, -, hp⟩ := (hw.new_view v hvu _).mp hv
    exact hout (World.path_inj (htree z hz) hx hp ▸ hz)

section Traversed

variable (h : Lag d (q :: Q)) (hq : q.isAppeared = true) (htree : ∀ x ∈ xs, x ∈ d.kernel.tree.dirs)
include h hq htree

theorem Lag.watched_mirror (wd : ℕ) (p : Path) : replay (view d'.wlCache) Q wd = some p ↔
    ∃ x ∈ d.kernel.tree.dirs, d'.kernel.watches.owner wd = some x.ino ∧ dirPath root x = p := by
  have hnot := h.not_renamed hq
  by_cases hwd : wd ∈ d.kernel.watches.used
  · have hmirror := h.mirror wd p
    rw [replay_cons, apply_of_appeared hq] at hmirror
    rw [hw.replay_old hnot hwd, (hw.old wd hwd).1]
    exact hmirror
  · -- no notice deletes a slot that the traversal has made
    have hkeep : .deleteSelf wd ∉ Q := fun hd =>
      (h.ready_tail hq).deleteSelf_mem hd (h.cached.view_eq_none hwd)
    rw [replay_of_not_renamed hnot, if_neg hkeep, hw.new_view wd hwd p]
    constructor
    · rintro ⟨x, hx, hp⟩
      exact ⟨x, htree x hx, hp⟩
    · rintro ⟨x, hx, ho, hp⟩
      obtain ⟨z, hz, he⟩ := hw.new wd hwd x.ino ho
      obtain rfl := d.kernel.tree.ino_inj z (htree z hz) x hx he
      exact ⟨z, hz, ho, hp⟩

/-- A traversal with the watches and slots it adds, while no rename is pending. -/
theorem Lag.watched
    (hclosed : ∀ x ∈ xs, ∀ y ∈ d.kernel.tree.dirs, x.comps <+: y.comps → y ∈ xs)
    (hfound : ∀ x ∈ d.kernel.tree.dirs, ∀ y ∈ d.kernel.tree.dirs, ∀ n wd cookie,
      x.comps = y.comps ++ [n] → d.kernel.watches.owner wd = some y.ino →
      q = .appeared wd n cookie → x ∈ xs) : Lag d' Q where
  cache := hw.cached.cache
  roots := hw.roots.trans h.roots
  used := hw.cached.used
  mirror := by
    rw [hw.tree]
    exact h.watched_mirror hw hq htree
  top := by
    rw [hw.tree]
    intro x hx htop
    obtain ⟨wd, hwd⟩ := h.top x hx htop
    exact ⟨wd, hw.keep hwd⟩
  pending := by
    rw [hw.tree]
    intro x hx y hy n wd hn hwd hfree
    have hout : x ∉ xs := fun hin => by
      obtain ⟨v, hv⟩ := hw.all x hin
      exact Watches.find_eq_none.mp hfree v hv
    by_cases hused : wd ∈ d.kernel.watches.used
    · rw [(hw.old wd hused).1] at hwd
      rcases h.pending_cons hx hy hn hwd (hw.find_eq_none hfree) with
        ⟨cookie, he, -⟩ | ⟨Q₁, cookie, Q₂, hQ, hpath⟩
      · exact absurd (hfound x hx y hy n wd cookie hn hwd he) hout
      · have hnot : ∀ r ∈ Q₁, r.isRenamed = false := fun r hr =>
          h.not_renamed hq r (by simp [hQ, hr])
        rw [apply_of_appeared hq] at hpath
        exact ⟨Q₁, cookie, Q₂, hQ, hw.replay_ne hnot htree hx hout hpath⟩
    · -- a parent that the traversal has found
      obtain ⟨z, hz, he⟩ := hw.new wd hused y.ino hwd
      obtain rfl := d.kernel.tree.ino_inj z (htree z hz) y hy he
      exact absurd (hclosed z hz x hx (hn ▸ List.prefix_append _ _)) hout
  ready := (h.ready_tail hq).mono (hw.sub h.used)
  order := (List.pairwise_cons.mp h.order).2

end Traversed

end Watched

/-- The first notice can be handled, and the invariant holds with the others. -/
theorem Lag.handle (h : Lag d (q :: Q)) : ∃ d', Handles L cfg q d d' ∧
    d'.kernel.queue = d.kernel.queue ∧ d'.kernel.tree = d.kernel.tree ∧ Lag d' Q := by
  cases hq : q.isAppeared with
  | false =>
    obtain ⟨d', hd, happ⟩ := @handles_of_enabled _ L cfg d q h.cache h.roots hq h.ready.1
    exact ⟨d', hd, by rw [happ.kernel], by rw [happ.kernel], h.applied hq happ⟩
  | true =>
    cases q with
    | appeared wd n cookie =>
      obtain ⟨p, hp⟩ := Option.ne_none_iff_exists'.mp h.ready.1
      by_cases hknown : ∃ v, view d.wlCache v = some (eventPath p n)
      · exact ⟨d, handles_known h.cache hp hknown, rfl, rfl, h.known hp hknown⟩
      · obtain ⟨d', xs, hd, hw, hxs⟩ := @Cached.watchSubtree _ L _ h.cached (eventPath p n)
        refine ⟨d', handles_unknown h.cache hp (by simpa using hknown) hd, hw.queue, hw.tree,
          h.watched hw rfl (fun x hx => ((hxs x).mp hx).1) ?_ ?_⟩
        · intro x hx y hy hpre
          obtain ⟨-, t, ht, hpt, htx⟩ := (hxs x).mp hx
          exact (hxs y).mpr ⟨hy, t, ht, hpt, htx.trans hpre⟩
        · intro x hx y hy m v c hm hv heq
          obtain ⟨rfl, rfl, rfl⟩ := by simpa using heq
          exact (hxs x).mpr ⟨hx, x, hx, (h.appeared_path hx hy hm hv hp).symm, List.prefix_rfl⟩
    | _ => cases hq

theorem Lag.handling : Handling L cfg (@Lag root) where
  cache h := h.cache
  enabled h := h.ready.1
  handle h := h.handle
  queue _ h := ⟨h.cache, h.roots, h.used, h.mirror, h.top, h.pending, h.ready, h.order⟩

end Tlpi.Inotify
