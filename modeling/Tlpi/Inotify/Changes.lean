import Mathlib.Tactic
import Tlpi.Inotify.Lag

/-! Operations of another process on the tree keep the invariant of `Lag`: new directories are
announced, removed ones disappear from the map, and a rename, while no new directory is announced,
rewrites the pathnames as the tree changes. -/

namespace Tlpi.Inotify
open Lib

variable {root : Path} {d : Dtree (World root)} {w' : World root} {Q : List Notice}

/-! ## New directories -/

theorem replay_appeared {V : View} (wds : List ℕ) (n : Name) (cookie : Option ℕ) :
    replay V (wds.map fun wd => .appeared wd n cookie) = V := by
  induction wds with
  | nil => rfl
  | cons wd wds ih => exact ih

section Appear

variable (h : Lag d Q) (sub : DirTree Name) {dir : List Name} {n : Name}
  (hmem : ∀ x, x ∈ w'.tree.dirs ↔
    x ∈ d.kernel.tree.dirs ∨ ∃ y ∈ sub.dirs, x = ⟨y.ino, dir ++ [n] ++ y.comps⟩)
  (hfree : ¬ d.kernel.tree.Has (dir ++ [n]))
include h hmem hfree

/-- The pathname of a new entry `n` of `dir`, or of a directory below it, is not in the cache. -/
theorem Lag.appear_path {x : Dir Name} (hx : x ∈ w'.tree.dirs) (hin : dir ++ [n] <+: x.comps)
    (v : ℕ) : replay (view d.wlCache) Q v ≠ some (dirPath root x) := by
  intro hv
  obtain ⟨u, hu, -, hp⟩ := (h.mirror v _).mp hv
  obtain rfl := World.path_inj ((hmem u).mpr (.inl hu)) hx hp
  exact hfree ((DirTree.has_of_mem hu).above hin)

omit h hmem in
/-- A new directory in an old one is the entry itself. -/
theorem parent_of_new {y z : Dir Name} {m : Name} (hy : y ∈ d.kernel.tree.dirs)
    (hm : dir ++ [n] ++ z.comps = y.comps ++ [m]) : y.comps = dir ∧ m = n := by
  rcases List.eq_nil_or_concat' z.comps with hz | ⟨cs, c, hz⟩
  · rw [hz, List.append_nil] at hm
    obtain ⟨hdir, hname⟩ := List.append_inj' hm rfl
    exact ⟨hdir.symm, (List.singleton_inj.mp hname).symm⟩
  · rw [hz, ← List.append_assoc] at hm
    obtain ⟨hpre, -⟩ := List.append_inj' hm rfl
    exact absurd ((DirTree.has_of_mem hy).above (hpre ▸ List.prefix_append _ cs)) hfree

/-- A subtree without watches becomes the entry `n` of `dir`. -/
theorem Lag.appear (cookie : Option ℕ)
    (hun : ∀ y ∈ sub.dirs, d.kernel.watches.find y.ino = none)
    (hW : w'.watches = d.kernel.watches) : Lag { d with kernel := w' }
      (Q ++ (d.kernel.watchAt dir).toList.map fun wd => .appeared wd n cookie) := by
  have hold {x : Dir Name} {wd : ℕ} (hx : x ∈ w'.tree.dirs)
      (hwd : d.kernel.watches.owner wd = some x.ino) : x ∈ d.kernel.tree.dirs := by
    rcases (hmem x).mp hx with hx | ⟨y, hy, rfl⟩
    · exact hx
    · exact absurd hwd (Watches.find_eq_none.mp (hun y hy) wd)
  refine {
    cache := h.cache
    roots := h.roots
    used := fun wd p hp => hW ▸ h.used wd p hp
    mirror := fun wd p => ?_
    top := fun x hx htop => ?_
    pending := fun x hx y hy m wd hm hwd hnone => ?_
    ready := ready_append.mpr ⟨h.ready, ?_⟩
    order := List.pairwise_append.mpr ⟨h.order, ?_, fun q _ r hr _ => ?_⟩ }
  · rw [replay_append, replay_appeared, h.mirror, hW]
    constructor
    · rintro ⟨x, hx, hp⟩
      exact ⟨x, (hmem x).mpr (.inl hx), hp⟩
    · rintro ⟨x, hx, hwd, hp⟩
      exact ⟨x, hold hx hwd, hwd, hp⟩
  · rw [hW]
    rcases (hmem x).mp hx with hx | ⟨y, -, rfl⟩
    · exact h.top x hx htop
    · simp at htop
  · rw [hW] at hwd hnone
    have hy := hold hy hwd
    rcases (hmem x).mp hx with hx' | ⟨z, hz, rfl⟩
    · obtain ⟨Q₁, c, Q₂, rfl, hpath⟩ := h.pending x hx' y hy m wd hm hwd hnone
      exact ⟨Q₁, c, _, List.append_assoc .., hpath⟩
    · obtain ⟨hdir, rfl⟩ := parent_of_new hfree hy hm
      have hat : d.kernel.watchAt dir = some wd := World.watchAt_eq_some.mpr ⟨y, hy, hdir, hwd⟩
      exact ⟨Q, cookie, [], by rw [hat]; rfl,
        h.appear_path sub hmem hfree hx (List.prefix_append _ _)⟩
  · cases hat : d.kernel.watchAt dir with
    | none => trivial
    | some wd =>
      obtain ⟨y, hy, -, hwd⟩ := World.watchAt_eq_some.mp hat
      have hsome := (h.mirror wd (dirPath root y)).mpr ⟨y, hy, hwd, rfl⟩
      exact ⟨fun hnone => by simp [hsome] at hnone, trivial⟩
  · cases d.kernel.watchAt dir <;> simp
  · obtain ⟨wd, -, rfl⟩ := List.mem_map.mp hr
    rfl

end Appear

/-! ## Removed directories -/

theorem owner_removed {W : Watches} {r : Option ℕ} {v i : ℕ} :
    (r.elim W W.remove).owner v = some i ↔ W.owner v = some i ∧ r ≠ some v := by
  cases r with
  | none => simp
  | some wd =>
    rw [Option.elim_some, Watches.owner_remove, and_comm, ne_comm]
    simp

theorem replay_removed {V : View} {r : Option ℕ} {v : ℕ} {p : Path} :
    replay V (World.removedNotice r) v = some p ↔ V v = some p ∧ r ≠ some v := by
  cases r with
  | none => simp [World.removedNotice]
  | some wd =>
    change Function.update V wd none v = some p ↔ _
    by_cases hv : v = wd
    · simp [hv]
    · simp [hv, Ne.symm hv]

theorem watchAt_iff {w : World root} {x : Dir Name} {v : ℕ} {cs : List Name} (hx : x ∈ w.tree.dirs)
    (hv : w.watches.owner v = some x.ino) : w.watchAt cs = some v ↔ x.comps = cs := by
  rw [World.watchAt_eq_some]
  constructor
  · rintro ⟨y, hy, hcs, hy'⟩
    rwa [w.tree.ino_inj x hx y hy (Option.some.inj (hv.symm.trans hy'))]
  · intro hcs
    exact ⟨x, hx, hcs, hv⟩

/-- The map after directories have moved as `f` says, without the one that was at `cs`. -/
theorem mirror_removed {w : World root} {V : View} {f : Dir Name → Dir Name} {cs : List Name}
    (hino : ∀ x, (f x).ino = x.ino)
    (hV : ∀ v p, V v = some p ↔
      ∃ x ∈ w.tree.dirs, w.watches.owner v = some x.ino ∧ dirPath root (f x) = p)
    (hmem : ∀ y, y ∈ w'.tree.dirs ↔ ∃ x ∈ w.tree.dirs, x.comps ≠ cs ∧ f x = y)
    (hW : w'.watches = (w.watchAt cs).elim w.watches w.watches.remove) (v : ℕ) (p : Path) :
    replay V (World.removedNotice (w.watchAt cs)) v = some p ↔
      ∃ y ∈ w'.tree.dirs, w'.watches.owner v = some y.ino ∧ dirPath root y = p := by
  rw [replay_removed, hV]
  simp only [hW, owner_removed]
  constructor
  · rintro ⟨⟨x, hx, hv, hp⟩, hne⟩
    have hcs : x.comps ≠ cs := fun he => hne ((watchAt_iff hx hv).mpr he)
    exact ⟨f x, (hmem _).mpr ⟨x, hx, hcs, rfl⟩, ⟨by rw [hino, hv], hne⟩, hp⟩
  · rintro ⟨y, hy, ⟨hv, hne⟩, hp⟩
    obtain ⟨x, hx, -, rfl⟩ := (hmem y).mp hy
    rw [hino] at hv
    exact ⟨⟨x, hx, hv, hp⟩, hne⟩

theorem used_removed (W : Watches) (r : Option ℕ) : (r.elim W W.remove).used = W.used := by
  cases r <;> rfl

/-- The other directories keep their watches. -/
theorem owner_kept {w : World root} {x : Dir Name} {cs : List Name} {v : ℕ}
    (hx : x ∈ w.tree.dirs) (hne : x.comps ≠ cs) (hv : w.watches.owner v = some x.ino) :
    ((w.watchAt cs).elim w.watches w.watches.remove).owner v = some x.ino :=
  owner_removed.mpr ⟨hv, fun he => hne ((watchAt_iff hx hv).mp he)⟩

theorem ready_removed {w : World root} {V : View} {cs : List Name}
    (hV : ∀ v, w.watchAt cs = some v → ∃ p, V v = some p ∧ p ≠ root) :
    Ready root V (World.removedNotice (w.watchAt cs)) := by
  cases hat : w.watchAt cs with
  | none => trivial
  | some wd => exact ⟨hV wd hat, trivial, trivial⟩

theorem dirPath_ne_root {w : World root} {x : Dir Name} (hx : x ∈ w.tree.dirs)
    (hne : x.comps ≠ []) : dirPath root x ≠ root := fun he => by
  obtain ⟨t, ht, htop⟩ := w.tree.has_root
  have hp : dirPath root x = dirPath root t := by
    rw [he, dirPath, htop]
    rfl
  exact hne (World.path_inj hx ht hp ▸ htop)

theorem removedNotice_pairwise (r : Option ℕ) :
    (World.removedNotice r).Pairwise fun q s => q.isAppeared = true → s.isRenamed = false := by
  cases r <;> simp [World.removedNotice, Notice.isAppeared]

theorem isRenamed_of_mem_removed {r : Option ℕ} {q : Notice} (h : q ∈ World.removedNotice r) :
    q.isRenamed = false := by
  cases r with
  | none => cases h
  | some wd =>
    simp only [World.removedNotice, List.mem_cons, List.not_mem_nil, or_false] at h
    rcases h with rfl | rfl <;> rfl

theorem find_of_removed {w : World root} {x : Dir Name} {cs : List Name} (hx : x ∈ w.tree.dirs)
    (hne : x.comps ≠ cs)
    (h : ((w.watchAt cs).elim w.watches w.watches.remove).find x.ino = none) :
    w.watches.find x.ino = none := by
  rw [Watches.find_eq_none] at h ⊢
  exact fun v hv => h v (owner_kept hx hne hv)

theorem Lag.remove (h : Lag d Q) {cs : List Name} (hcs : cs ≠ [])
    (hmem : ∀ x, x ∈ w'.tree.dirs ↔ x ∈ d.kernel.tree.dirs ∧ x.comps ≠ cs)
    (hW : w'.watches = (d.kernel.watchAt cs).elim d.kernel.watches d.kernel.watches.remove) :
    Lag { d with kernel := w' } (Q ++ World.removedNotice (d.kernel.watchAt cs)) := by
  refine {
    cache := h.cache
    roots := h.roots
    used := fun wd p hp => ?_
    mirror := fun v p => ?_
    top := fun x hx htop => ?_
    pending := fun x hx y hy m wd hm hwd hnone => ?_
    ready := ready_append.mpr ⟨h.ready, ready_removed fun v hv => ?_⟩
    order := List.pairwise_append.mpr
      ⟨h.order, removedNotice_pairwise _, fun _ _ _ hr _ => isRenamed_of_mem_removed hr⟩ }
  · rw [hW, used_removed]
    exact h.used wd p hp
  · rw [replay_append]
    exact mirror_removed (f := id) (fun _ => rfl) h.mirror (by simpa [and_assoc] using hmem) hW v p
  · obtain ⟨hx, hne⟩ := (hmem x).mp hx
    obtain ⟨wd, hwd⟩ := h.top x hx htop
    exact ⟨wd, hW ▸ owner_kept hx hne hwd⟩
  · rw [hW] at hwd hnone
    obtain ⟨hx, hne⟩ := (hmem x).mp hx
    obtain ⟨Q₁, c, Q₂, rfl, hpath⟩ := h.pending x hx y ((hmem y).mp hy).1 m wd hm
      (owner_removed.mp hwd).1 (find_of_removed hx hne hnone)
    exact ⟨Q₁, c, _, List.append_assoc .., hpath⟩
  · obtain ⟨x, hx, hxc, hxv⟩ := World.watchAt_eq_some.mp hv
    exact ⟨_, (h.mirror v _).mpr ⟨x, hx, hxv, rfl⟩, dirPath_ne_root hx (hxc ▸ hcs)⟩

/-! ## Renamed directories -/

theorem rewritePath_move (hslash : root.getLast? ≠ some '/') {x : Dir Name} {old new : List Name}
    (hold : ∀ n ∈ old, ValidName n) (hnew : ∀ n ∈ new, ValidName n)
    (hx : ∀ n ∈ x.comps, ValidName n)
    (hlen : (dirPath root (x.move old new)).length < PATH_MAX) :
    rewritePath (pathOf root old) (pathOf root new) (dirPath root x) =
      dirPath root (x.move old new) := by
  unfold rewritePath Dir.move dirPath at *
  by_cases hin : old <+: x.comps
  · rw [if_pos hin] at hlen ⊢
    rw [if_pos ((atOrBelow_pathOf hslash hold hx).mpr hin)]
    obtain ⟨cs, hcs⟩ := hin
    rw [← hcs] at hx hlen ⊢
    have hcs : ∀ n ∈ cs, ValidName n := fun n hn => hx n (List.mem_append_right _ hn)
    rw [List.drop_left] at hlen ⊢
    dsimp only at hlen ⊢
    rw [pathOf_append hslash hnew hcs] at hlen ⊢
    rw [pathOf_append hslash hold hcs, List.drop_left, snprintf_of_lt hlen, strncpy_of_le hlen.le]
  · rw [if_neg hin, if_neg fun ha => hin ((atOrBelow_pathOf hslash hold hx).mp ha)]

theorem move_ino (x : Dir Name) (old new : List Name) : (x.move old new).ino = x.ino := by
  unfold Dir.move
  split_ifs <;> rfl

/-- Without pending notices of new directories every directory has a watch. -/
theorem Lag.all_watched (h : Lag d Q) (hQ : ∀ q ∈ Q, q.isAppeared = false) :
    ∀ x ∈ d.kernel.tree.dirs, ∃ wd, d.kernel.watches.owner wd = some x.ino := by
  refine DirTree.forall_of_child h.top ?_
  rintro x hx y hy n hn ⟨wd, hwd⟩
  by_contra hnone
  obtain ⟨Q₁, c, Q₂, rfl, -⟩ := h.pending x hx y hy n wd hn hwd
    (Watches.find_eq_none.mpr (by simpa using hnone))
  exact absurd (hQ (.appeared wd n c) (by simp)) (by simp [Notice.isAppeared])

theorem Lag.watchAt_has (h : Lag d Q) (hQ : ∀ q ∈ Q, q.isAppeared = false) {cs : List Name}
    (hcs : d.kernel.tree.Has cs) : ∃ wd, d.kernel.watchAt cs = some wd ∧
      replay (view d.wlCache) Q wd = some (pathOf root cs) := by
  obtain ⟨x, hx, rfl⟩ := hcs
  obtain ⟨wd, hwd⟩ := h.all_watched hQ x hx
  exact ⟨wd, World.watchAt_eq_some.mpr ⟨x, hx, rfl, hwd⟩, (h.mirror _ _).mpr ⟨x, hx, hwd, rfl⟩⟩

section Rename

variable {dir dir' : List Name} {n n' : Name} (h : Lag d Q)
  (hhas : d.kernel.tree.Has (dir ++ [n])) (hsep : ¬ dir ++ [n] <+: dir' ++ [n'])
  (hmem : ∀ y, y ∈ w'.tree.dirs ↔ ∃ x ∈ d.kernel.tree.dirs, x.comps ≠ dir' ++ [n'] ∧
    x.move (dir ++ [n]) (dir' ++ [n']) = y)
include h hhas hsep hmem

/-- The entries are rewritten as the directories move, also the one that is replaced. -/
theorem Lag.renamed_view {wd wd' cookie : ℕ}
    (hpath : replay (view d.wlCache) Q wd = some (pathOf root dir))
    (hpath' : replay (view d.wlCache) Q wd' = some (pathOf root dir')) (v : ℕ) (p : Path) :
    replay (view d.wlCache) (Q ++ [.renamed wd n wd' n' cookie]) v = some p ↔
      ∃ x ∈ d.kernel.tree.dirs, d.kernel.watches.owner v = some x.ino ∧
        dirPath root (x.move (dir ++ [n]) (dir' ++ [n'])) = p := by
  obtain ⟨a, ha, hac⟩ := hhas
  have hmoved : a.move (dir ++ [n]) (dir' ++ [n']) = ⟨a.ino, dir' ++ [n']⟩ := by
    simp [Dir.move, hac]
  have hb : (⟨a.ino, dir' ++ [n']⟩ : Dir Name) ∈ w'.tree.dirs :=
    (hmem _).mpr ⟨a, ha, fun he => hsep (by rw [← hac, he]), hmoved⟩
  have hhas : d.kernel.tree.Has (dir ++ [n]) := ⟨a, ha, hac⟩
  have hhas' : w'.tree.Has (dir' ++ [n']) := ⟨_, hb, rfl⟩
  -- the two prefixes that the program computes
  have hfull : entryPath (pathOf root dir) n = pathOf root (dir ++ [n]) :=
    snprintf_of_has hhas le_rfl
  have hpre : entryPath (pathOf root dir') n' = pathOf root (dir' ++ [n']) :=
    snprintf_of_has hhas' le_rfl
  have hrw (x : Dir Name) (hx : x ∈ d.kernel.tree.dirs) :
      rewritePath (pathOf root (dir ++ [n])) (pathOf root (dir' ++ [n'])) (dirPath root x) =
        dirPath root (x.move (dir ++ [n]) (dir' ++ [n'])) := by
    refine rewritePath_move d.kernel.noSlash (valid_of_has hhas) (valid_of_has hhas')
      (d.kernel.nameable x hx).1 ?_
    by_cases hxb : x.comps = dir' ++ [n']
    · rw [Dir.move, if_neg (hxb ▸ hsep)]
      exact (d.kernel.nameable x hx).2
    · exact (w'.nameable _ ((hmem _).mpr ⟨x, hx, hxb, rfl⟩)).2
  simp only [replay_append, replay_cons, replay_nil, Notice.apply, hpath, hpath', hfull, hpre,
    Option.map_eq_some_iff, h.mirror]
  constructor
  · rintro ⟨_, ⟨x, hx, hv, rfl⟩, rfl⟩
    exact ⟨x, hx, hv, (hrw x hx).symm⟩
  · rintro ⟨x, hx, hv, rfl⟩
    exact ⟨_, ⟨x, hx, hv, rfl⟩, hrw x hx⟩

theorem Lag.rename (hQ : ∀ q ∈ Q, q.isAppeared = false) (hdir' : d.kernel.tree.Has dir')
    (hW : w'.watches =
      (d.kernel.watchAt (dir' ++ [n'])).elim d.kernel.watches d.kernel.watches.remove) :
    Lag { d with kernel := w' }
      (Q ++
        (World.movedNotice (d.kernel.watchAt dir) (d.kernel.watchAt dir') n n' d.kernel.cookie ++
          World.removedNotice (d.kernel.watchAt (dir' ++ [n'])))) := by
  obtain ⟨wd, hwd, hpath⟩ := h.watchAt_has hQ (hhas.above (List.prefix_append dir [n]))
  obtain ⟨wd', hwd', hpath'⟩ := h.watchAt_has hQ hdir'
  have hV := @Lag.renamed_view _ _ _ _ _ _ _ _ h hhas hsep hmem _ _ d.kernel.cookie hpath hpath'
  have hall : ∀ y ∈ w'.tree.dirs, ∃ wd, w'.watches.owner wd = some y.ino := by
    intro y hy
    obtain ⟨x, hx, hne, rfl⟩ := (hmem y).mp hy
    obtain ⟨v, hv⟩ := h.all_watched hQ x hx
    rw [hW, move_ino]
    exact ⟨v, owner_kept hx hne hv⟩
  rw [hwd, hwd']
  change Lag _ (Q ++ ([.renamed wd n wd' n' d.kernel.cookie] ++ _))
  refine lag_of_all_watched h.cache h.roots (fun v p hp => ?_) (fun v p => ?_) hall ?_ ?_
  · rw [hW, used_removed]
    exact h.used v p hp
  · rw [← List.append_assoc, replay_append]
    exact mirror_removed (move_ino · _ _) hV hmem hW v p
  · rw [← List.append_assoc]
    refine ready_append.mpr ⟨ready_append.mpr ⟨h.ready, ⟨?_, ?_⟩, trivial⟩,
      ready_removed fun v hv => ?_⟩
    · simp [hpath]
    · simp [hpath']
    · obtain ⟨b, hb, hbc, hbv⟩ := World.watchAt_eq_some.mp hv
      have hstay : b.move (dir ++ [n]) (dir' ++ [n']) = b := if_neg (hbc ▸ hsep)
      exact ⟨dirPath root b, (hV v _).mpr ⟨b, hb, hbv, by rw [hstay]⟩,
        dirPath_ne_root hb (by simp [hbc])⟩
  · refine List.pairwise_append.mpr ⟨h.order, ?_, fun q hq r _ happ => ?_⟩
    · refine List.pairwise_append.mpr ⟨by simp, removedNotice_pairwise _, fun q hq r _ happ => ?_⟩
      rw [List.mem_singleton.mp hq] at happ
      cases happ
    · rw [hQ q hq] at happ
      cases happ

end Rename

/-! ## The operations -/

/-- The operations that do not add directories from outside. -/
def Op.Inside : Op → Bool
  | .mkdir _ _ _ => true
  | .rmdir _ _ => true
  | .rename _ _ _ _ => true
  | _ => false

def Op.isRename : Op → Bool
  | .rename _ _ _ _ => true
  | _ => false

theorem Lag.change {op : Op} (h : Lag d Q) (hop : op.Inside = true)
    (hren : op.isRename = true → ∀ q ∈ Q, q.isAppeared = false)
    (hw : d.kernel.apply op = some w') : Lag { d with kernel := w' }
      (Q ++ (d.kernel.notices op ++ World.removedNotice (d.kernel.removedWatch op))) := by
  obtain ⟨hun, htree, hW, -⟩ := World.apply_eq_some hw
  cases op with
  | mkdir dir name ino =>
    obtain ⟨hg, hmem⟩ := DirTree.mkdir_eq_some htree
    rw [show World.removedNotice (d.kernel.removedWatch (.mkdir dir name ino)) = [] from rfl,
      List.append_nil]
    exact h.appear (.single ino) (by simpa [DirTree.single] using hmem) hg.free none
      (by simpa [DirTree.single, Op.Unwatched] using hun) hW
  | rmdir dir name =>
    obtain ⟨-, hmem⟩ := DirTree.rmdir_eq_some htree
    exact h.remove (by simp) hmem hW
  | rename dir name dir' name' =>
    obtain ⟨hhas, hdir', hsep, hmem⟩ := DirTree.rename_eq_some htree
    exact h.rename hhas hsep hmem (hren rfl) hdir' hW
  | moveOut dir name => cases hop
  | moveIn sub dir name => cases hop

theorem validName_of_has {w : World root} {dir : List Name} {n : Name}
    (h : w.tree.Has (dir ++ [n])) : ValidName n := valid_of_has h n (by simp)

theorem valid_of_mem_moved {r r' : Option ℕ} {n n' : Name} {cookie : ℕ} {q : Notice}
    (hn : ValidName n) (hn' : ValidName n') (hq : q ∈ World.movedNotice r r' n n' cookie) :
    q.Valid := by
  cases r <;> cases r' <;> simp only [World.movedNotice, List.mem_singleton, List.not_mem_nil] at hq
  · subst hq
    exact hn'
  · subst hq
    exact hn
  · subst hq
    exact ⟨hn, hn'⟩

theorem valid_of_mem_removed {r : Option ℕ} {q : Notice} (h : q ∈ World.removedNotice r) :
    q.Valid := by
  cases r with
  | none => cases h
  | some wd =>
    simp only [World.removedNotice, List.mem_cons, List.not_mem_nil, or_false] at h
    rcases h with rfl | rfl <;> trivial

theorem notices_valid {w : World root} {op : Op} (hw : w.apply op = some w') :
    ∀ q ∈ w.notices op ++ World.removedNotice (w.removedWatch op), q.Valid := by
  obtain ⟨-, htree, -, -⟩ := World.apply_eq_some hw
  intro q hq
  rcases List.mem_append.mp hq with hq | hq
  · cases op with
    | mkdir dir name ino =>
      obtain ⟨-, hmem⟩ := DirTree.mkdir_eq_some htree
      obtain ⟨wd, -, rfl⟩ := List.mem_map.mp hq
      exact @validName_of_has _ w' dir name ⟨_, (hmem _).mpr (.inr rfl), rfl⟩
    | rmdir dir name => cases hq
    | rename dir name dir' name' =>
      obtain ⟨hhas, -, hsep, hmem⟩ := DirTree.rename_eq_some htree
      obtain ⟨a, ha, hac⟩ := id hhas
      refine valid_of_mem_moved (validName_of_has hhas) (@validName_of_has _ w' dir' name' ?_) hq
      exact ⟨_, (hmem _).mpr ⟨a, ha, fun he => hsep (by rw [← hac, he]), rfl⟩,
        by simp [Dir.move, hac]⟩
    | moveOut dir name =>
      obtain ⟨hhas, -⟩ := DirTree.moveOut_eq_some htree
      exact valid_of_mem_moved (validName_of_has hhas) (validName_of_has hhas) hq
    | moveIn sub dir name =>
      obtain ⟨-, -, hmem⟩ := DirTree.moveIn_eq_some htree
      obtain ⟨t, ht, htop⟩ := sub.has_root
      have hname : ValidName name := @validName_of_has _ w' dir name
        ⟨_, (hmem _).mpr (.inr ⟨t, ht, rfl⟩), by simp [htop]⟩
      exact valid_of_mem_moved hname hname hq
  · exact valid_of_mem_removed hq

theorem Shape.change {l : Loop (World root)} {op : Op} (h : Shape l Q)
    (hw : l.d.kernel.apply op = some w') : Shape { l with d := { l.d with kernel := w' } }
      (Q ++ (l.d.kernel.notices op ++ World.removedNotice (l.d.kernel.removedWatch op))) where
  stream := by
    obtain ⟨-, -, -, hqueue⟩ := World.apply_eq_some hw
    rw [List.flatMap_append, ← h.stream, List.append_assoc, ← hqueue]
  valid q hq := by
    rcases List.mem_append.mp hq with hq | hq
    · exact h.valid q hq
    · exact notices_valid hw q hq
  count := h.count
  retry := h.retry

end Tlpi.Inotify
