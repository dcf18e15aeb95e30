import Mathlib.Tactic
import Tlpi.Inotify.Convergence

/-! Runs in which the program has handled all events of an operation before the next one. The cache
then has exactly one slot, with the right descriptor, for every directory, after any number of
operations inside the tree and of renames out of it. A rename into the tree is found exactly if it
does not replace a directory. -/

namespace Tlpi.Inotify
open Lib

variable {root : Path} {L : Choices} {cfg : Config} {d d' : Dtree (World root)} {w' : World root}
  {l : Loop (World root)} {Q : List Notice}

/-- The slots in use are those of the directories: one for each, with its watch and its pathname. -/
structure Mirrors (d : Dtree (World root)) : Prop where
  slot : ∀ s ∈ d.wlCache, 0 ≤ s.wd ∨ s = emptySlot
  sound : ∀ s ∈ d.wlCache, 0 ≤ s.wd → ∃ x ∈ d.kernel.tree.dirs,
    d.kernel.watches.owner s.wd.toNat = some x.ino ∧ s.path = dirPath root x
  complete : ∀ x ∈ d.kernel.tree.dirs,
    ∃! j : ℕ, ∃ s : Watch, d.wlCache[j]? = some s ∧ 0 ≤ s.wd ∧ s.path = dirPath root x

theorem mirrors_of_inStep (h : InStep d) : Mirrors d where
  slot := h.cache.slot
  sound := by
    rintro ⟨wd, p⟩ hs hpos
    obtain ⟨v, rfl⟩ := Int.eq_ofNat_of_zero_le hpos
    obtain ⟨x, hx, hv, hp⟩ := (h.view v p).mp ((view_eq_some h.cache).mpr hs)
    exact ⟨x, hx, hv, hp.symm⟩
  complete x hx := by
    obtain ⟨v, hv⟩ := h.watched x hx
    have hslot := (view_eq_some h.cache).mp ((h.view v _).mpr ⟨x, hx, hv, rfl⟩)
    obtain ⟨j, hj⟩ := List.mem_iff_getElem?.mp hslot
    refine ⟨j, ⟨_, hj, Int.natCast_nonneg v, rfl⟩, ?_⟩
    rintro i ⟨⟨wd, p⟩, hi, hpos, rfl⟩
    obtain ⟨u, rfl⟩ := Int.eq_ofNat_of_zero_le hpos
    -- a slot with the same pathname is that of the same directory
    obtain ⟨y, hy, hu, hp⟩ := (h.view u _).mp ((view_eq_some h.cache).mpr (List.mem_of_getElem? hi))
    obtain rfl := World.path_inj hy hx hp
    obtain rfl := d.kernel.watches.injective u v _ hu hv
    exact h.cache.distinct i j _ _ hi hj hpos rfl

theorem inStep_of_mirrors (h : Mirrors d) : InStep d := by
  have hsame {i j : ℕ} {s t : Watch} (hi : d.wlCache[i]? = some s) (hj : d.wlCache[j]? = some t)
      (hpos : 0 ≤ s.wd) (he : s.wd = t.wd) : i = j := by
    obtain ⟨x, hx, hsx, hp⟩ := h.sound s (List.mem_of_getElem? hi) hpos
    obtain ⟨y, hy, hty, hq⟩ := h.sound t (List.mem_of_getElem? hj) (he ▸ hpos)
    rw [← he, hsx] at hty
    obtain rfl := d.kernel.tree.ino_inj x hx y hy (Option.some.inj hty)
    exact (h.complete x hx).unique ⟨s, hi, hpos, hp⟩ ⟨t, hj, he ▸ hpos, hq⟩
  have hcache : CacheOk d.wlCache := ⟨h.slot, fun i j s t hi hj => hsame hi hj⟩
  have hslot (x : Dir Name) (hx : x ∈ d.kernel.tree.dirs) : ∃ v : ℕ,
      (⟨v, dirPath root x⟩ : Watch) ∈ d.wlCache ∧ d.kernel.watches.owner v = some x.ino := by
    obtain ⟨j, ⟨⟨wd, p⟩, hj, hpos, rfl⟩, -⟩ := h.complete x hx
    obtain ⟨v, rfl⟩ := Int.eq_ofNat_of_zero_le hpos
    have hm := List.mem_of_getElem? hj
    obtain ⟨y, hy, hv, hp⟩ := h.sound _ hm hpos
    obtain rfl := World.path_inj hx hy hp
    exact ⟨v, hm, hv⟩
  refine ⟨hcache, fun v p => ?_, fun x hx => ?_⟩
  · rw [view_eq_some hcache]
    constructor
    · intro hm
      obtain ⟨x, hx, hv, hp⟩ := h.sound _ hm (Int.natCast_nonneg v)
      exact ⟨x, hx, hv, hp.symm⟩
    · rintro ⟨x, hx, hv, rfl⟩
      obtain ⟨u, hm, hu⟩ := hslot x hx
      rwa [d.kernel.watches.injective v u _ hv hu]
  · obtain ⟨v, -, hv⟩ := hslot x hx
    exact ⟨v, hv⟩

/-! ## A rename out of the tree -/

theorem replay_ignored {V : View} (vs : List ℕ) : replay V (vs.map .ignored) = V := by
  induction vs with
  | nil => rfl
  | cons v vs ih => exact ih

theorem ready_ignored {V : View} (vs : List ℕ) : Ready root V (vs.map .ignored) := by
  induction vs with
  | nil => trivial
  | cons v vs ih => exact ⟨trivial, ih⟩

/-- The cache is that of the tree before the subtree at `cs` was moved away; after the slots and
watches below `cs` have been removed it is that of the tree now. -/
theorem lag_of_zapped {w : World root} {cs : List Name} {vs : List ℕ}
    (hroots : d.rootDirPaths = [some root])
    (hview : ∀ v p, view d.wlCache v = some p ↔
      ∃ x ∈ w.tree.dirs, w.watches.owner v = some x.ino ∧ dirPath root x = p)
    (hall : ∀ x ∈ w.tree.dirs, ∃ v, w.watches.owner v = some x.ino)
    (hcs : ∀ n ∈ cs, ValidName n)
    (hmem : ∀ x, x ∈ d.kernel.tree.dirs ↔ x ∈ w.tree.dirs ∧ ¬ cs <+: x.comps)
    (hW : d.kernel.watches = w.watches) (hz : ZappedBelow (pathOf root cs) d d') :
    Lag d' (vs.map .ignored) := by
  have hbelow {x : Dir Name} (hx : x ∈ w.tree.dirs) :
      atOrBelow (pathOf root cs) (dirPath root x) = true ↔ cs <+: x.comps :=
    atOrBelow_pathOf w.noSlash hcs (w.nameable x hx).1
  have howner {x : Dir Name} {v : ℕ} (hx : x ∈ d'.kernel.tree.dirs) :
      d'.kernel.watches.owner v = some x.ino ↔ w.watches.owner v = some x.ino := by
    rw [hz.tree, hmem] at hx
    rw [hz.owner, hW]
    refine and_iff_left_of_imp fun hv p hp => ?_
    rw [(hview v _).mpr ⟨x, hx.1, hv, rfl⟩] at hp
    obtain rfl := Option.some.inj hp
    exact fun hb => hx.2 ((hbelow hx.1).mp hb)
  have hwatched : ∀ x ∈ d'.kernel.tree.dirs, ∃ v, d'.kernel.watches.owner v = some x.ino := by
    intro x hx
    obtain ⟨v, hv⟩ := hall x ((hmem x).mp (hz.tree ▸ hx)).1
    exact ⟨v, (howner hx).mpr hv⟩
  refine lag_of_all_watched hz.cache (hz.roots.trans hroots) (fun v p hp => ?_) (fun v p => ?_)
    hwatched (ready_ignored vs) ?_
  · obtain ⟨x, -, hv, -⟩ := (hview v p).mp ((hz.view v p).mp hp).1
    rw [hz.used, hW]
    exact w.watches.owner_used v _ hv
  · rw [replay_ignored, hz.view, hview]
    constructor
    · rintro ⟨⟨x, hx, hv, rfl⟩, hb⟩
      have hx' : x ∈ d'.kernel.tree.dirs := by
        rw [hz.tree]
        exact (hmem x).mpr ⟨hx, fun hpre => hb ((hbelow hx).mpr hpre)⟩
      exact ⟨x, hx', (howner hx').mpr hv, rfl⟩
    · rintro ⟨x, hx', hv, rfl⟩
      obtain ⟨hx, hpre⟩ := (hmem x).mp (hz.tree ▸ hx')
      exact ⟨⟨x, hx, (howner hx').mp hv, rfl⟩, fun hb => hpre ((hbelow hx).mp hb)⟩
  · exact List.pairwise_map.mpr (List.pairwise_of_forall fun _ _ happ => nomatch happ)

theorem run_step {σ : Type} {K : Kernel σ} {l l' : Loop σ} (h : step K cfg l = some (.ok l'))
    (fuel : ℕ) : run K cfg (fuel + 1) l = run K cfg fuel l' := by
  rw [run, h]

theorem processEvent_movedOut (hc : CacheOk d.wlCache) {wd cookie : ℕ} {n : Name} {p : Path}
    (hp : view d.wlCache wd = some p)
    (hzap : zapSubtree (linux L root) d (eventPath p n) = (d', true)) :
    processEvent (linux L root) cfg d (named wd { movedFrom := true } cookie n) none false =
      .ok (d', .one) := by
  obtain ⟨j, -, huse, hdispatch⟩ := @processEvent_slot _ (linux L root) cfg d hc
    (named wd { movedFrom := true } cookie n) wd p rfl rfl hp
  rw [hdispatch]
  change movedOut (linux L root) d _ (some j) = _
  rw [movedOut, huse, ok_bind]
  change zapOrDiscard (linux L root) d (eventPath p n) = _
  rw [zapOrDiscard, hzap, if_pos rfl]

/-- The program takes the `IN_MOVED_FROM` for a move out of the tree after it has waited in vain for
an `IN_MOVED_TO`. -/
theorem run_movedOut (hc : CacheOk d.wlCache) (hcfg : cfg.ReadsOk) {wd cookie : ℕ} {n : Name}
    {p : Path} (hn : ValidName n) (hp : view d.wlCache wd = some p)
    (hzap : zapSubtree (linux L root) (d.withQueue []) (eventPath p n) = (d', true)) {numRead : ℤ}
    (hnum : numRead ≤ 0) (firstTry : Bool) (fuel : ℕ) :
    run (linux L root) cfg (fuel + 3)
        ⟨d.withQueue [named wd { movedFrom := true } cookie n], [], numRead, firstTry⟩ =
      run (linux L root) cfg fuel ⟨d', [], -1, true⟩ := by
  generalize hev : named wd { movedFrom := true } cookie n = ev
  have hsize : ev.size ≤ cfg.cnt := hev ▸ (size_named hn).trans hcfg.room
  have hpos := ev.size_pos
  have hread : step (linux L root) cfg ⟨d.withQueue [ev], [], numRead, firstTry⟩ =
      some (.ok ⟨d.withQueue [], [ev], ev.size, true⟩) := by
    rw [step, if_neg (not_lt.mpr hnum)]
    simp [linux, firstRead, World.read, Dtree.withQueue, hsize, fitting]
  have hhang : step (linux L root) cfg ⟨d.withQueue [], [ev], ev.size, true⟩ =
      some (.ok ⟨d.withQueue [], [ev], ev.size - 1, false⟩) := by
    have hnext : nextEvent ev [] ev.size = none := by simp [nextEvent]
    have hproc : processEvent (linux L root) cfg (d.withQueue []) ev none true =
        .ok (d.withQueue [], .hanging) := by
      rw [← hev]
      exact processEvent_hanging (d := d.withQueue []) hc hp
    rw [step_loopBody hpos, loopBody]
    dsimp only
    rw [processNextInotifyEvent, hnext, hproc, ok_bind]
    rfl
  have hout : step (linux L root) cfg ⟨d.withQueue [], [ev], ev.size - 1, false⟩ =
      some (.ok ⟨d', [], -1, true⟩) := by
    have hnext : nextEvent ev [] (ev.size - 1) = none := by simp [nextEvent]
    have hproc : processEvent (linux L root) cfg (d.withQueue []) ev none false =
        .ok (d', .one) := by
      rw [← hev]
      exact processEvent_movedOut (d := d.withQueue []) hc hp hzap
    have hbig : (0 : ℤ) < ev.size - 1 := by
      simp only [Event.size]
      omega
    have hbody := @loopBody_consumed cfg _ (linux L root)
      ⟨d.withQueue [], [ev], ev.size - 1, false⟩ ev [] d' .one [ev] [] rfl rfl (by simp)
      (by simp [Ret.evLen]) (by rw [hnext]; exact hproc)
    rw [step_loopBody hbig, hbody]
    simp
  rw [run_step hread, run_step hhang, run_step hout]

/-! ## Operations, each with its events -/

def Op.isMoveIn : Op → Bool
  | .moveIn _ _ _ => true
  | _ => false

/-- The loop after a system call of another process; a call that fails changes nothing. -/
def Loop.after (l : Loop (World root)) (op : Op) : Loop (World root) :=
  match l.d.kernel.apply op with
  | some w => { l with d := { l.d with kernel := w } }
  | none => l

/-- After each operation the program runs until it waits. -/
def synchronous (L : Choices) (cfg : Config) (fuel : ℕ) : List Op → Loop (World root) →
    Option (Except (Exit (World root)) (Loop (World root)))
  | [], l => some (.ok l)
  | op :: ops, l =>
    match run (linux L root) cfg fuel (l.after op) with
    | some (.ok l') => synchronous L cfg fuel ops l'
    | r => r

/-- The program waits, with the cache in step with the tree. -/
def Settled (l : Loop (World root)) : Prop := Shape l [] ∧ Lag l.d []

theorem Shape.waiting (h : Shape l []) : Waiting l := by
  obtain ⟨hbuf, hq⟩ := List.append_eq_nil_iff.mp h.stream
  refine ⟨?_, hq⟩
  rcases h.count with hc | hc
  · exact hc.2
  · exact absurd hbuf hc.1

theorem Settled.moveOut (h : Settled l) (hcfg : cfg.ReadsOk) {dir : List Name} {n : Name}
    (hw : l.d.kernel.apply (.moveOut dir n) = some w') : ∃ fuel l',
      run (linux L root) cfg fuel { l with d := { l.d with kernel := w' } } = some (.ok l') ∧
        Settled l' := by
  obtain ⟨hshape, hlag⟩ := h
  obtain ⟨-, htree, hW, hqueue⟩ := World.apply_eq_some hw
  obtain ⟨hhas, hmem⟩ := DirTree.moveOut_eq_some htree
  obtain ⟨hbuf, hempty⟩ := List.append_eq_nil_iff.mp hshape.stream
  obtain ⟨wd, hwd, hp⟩ := hlag.watchAt_has (by simp) (hhas.above (List.prefix_append dir [n]))
  have hall := hlag.all_watched (by simp)
  have hpath : eventPath (pathOf root dir) n = pathOf root (dir ++ [n]) :=
    snprintf_of_has hhas (by simp)
  have hone : w'.queue = [named wd { movedFrom := true } l.d.kernel.cookie n] := by
    rw [hqueue, hempty, World.notices, hwd]
    rfl
  -- the watches below the directory are live still
  obtain ⟨d', hzap, hz⟩ := @zapSubtree_linux _ L (Dtree.withQueue { l.d with kernel := w' } [])
    hlag.cache (pathOf root (dir ++ [n])) fun v p hv => by
      obtain ⟨x, -, hx, -⟩ := (hlag.mirror v p).mp hv
      change (w'.watches.owner v).isSome = true
      rw [hW]
      simp [World.removedWatch, Op.removes, hx]
  obtain ⟨vs, hvs⟩ := hz.queue
  have hlag' : Lag d' (vs.map .ignored) :=
    @lag_of_zapped _ (Dtree.withQueue { l.d with kernel := w' } []) _ _ _ _ hlag.roots hlag.mirror
      hall (valid_of_has hhas) hmem hW hz
  have hshape' : Shape ⟨d', [], -1, true⟩ (vs.map .ignored) := by
    refine ⟨hvs, fun q hq => ?_, .inl ⟨rfl, by simp⟩, by simp⟩
    obtain ⟨v, -, rfl⟩ := List.mem_map.mp hq
    trivial
  obtain ⟨fuel, l', hrun, hs, hl, -⟩ := (Lag.handling (L := L)).settles hcfg hshape' hlag'
  have hnum : l.numRead ≤ 0 := hshape.waiting.1
  have hmove := @run_movedOut _ L cfg { l.d with kernel := w' } d' hlag.cache hcfg wd
    l.d.kernel.cookie n _ (validName_of_has hhas) hp (hpath ▸ hzap) l.numRead hnum l.firstTry fuel
  refine ⟨fuel + 3, l', ?_, hs, hl⟩
  rw [← hone] at hmove
  rw [← hrun, ← hmove, hbuf]
  rfl

theorem Settled.after (h : Settled l) (hcfg : cfg.ReadsOk) {op : Op} (hop : op.isMoveIn = false) :
    ∃ fuel l', run (linux L root) cfg fuel (l.after op) = some (.ok l') ∧ Settled l' := by
  rw [Loop.after]
  cases hw : l.d.kernel.apply op with
  | none => exact ⟨1, l, by simp [run, h.1.waits], h⟩
  | some w' =>
    have hinside (hin : op.Inside = true) : ∃ fuel l', run (linux L root) cfg fuel
        { l with d := { l.d with kernel := w' } } = some (.ok l') ∧ Settled l' := by
      obtain ⟨fuel, l', hrun, hs, hl, -⟩ := (Lag.handling (L := L)).settles hcfg (h.1.change hw)
        (h.2.change hin (by simp) hw)
      exact ⟨fuel, l', hrun, hs, hl⟩
    cases op with
    | mkdir dir name ino => exact hinside rfl
    | rmdir dir name => exact hinside rfl
    | rename dir name dir' name' => exact hinside rfl
    | moveOut dir name => exact h.moveOut hcfg hw
    | moveIn sub dir name => cases hop

theorem synchronous_mono {fuel : ℕ} {ops : List Op} {l' : Loop (World root)}
    (h : synchronous L cfg fuel ops l = some (.ok l')) (extra : ℕ) :
    synchronous L cfg (fuel + extra) ops l = some (.ok l') := by
  induction ops generalizing l with
  | nil => exact h
  | cons op ops ih =>
    rw [synchronous] at h ⊢
    cases hr : run (linux L root) cfg fuel (l.after op) with
    | none => simp [hr] at h
    | some r =>
      rw [run_mono hr extra]
      rw [hr] at h
      cases r with
      | error e => simp at h
      | ok l₁ => exact ih h

theorem Settled.synchronous (hcfg : cfg.ReadsOk) {ops : List Op}
    (hops : ∀ op ∈ ops, op.isMoveIn = false) (h : Settled l) : ∃ fuel l',
      synchronous L cfg fuel ops l = some (.ok l') ∧ Settled l' := by
  induction ops generalizing l with
  | nil => exact ⟨0, l, rfl, h⟩
  | cons op ops ih =>
    obtain ⟨fuel, l₁, hrun, h₁⟩ := @Settled.after _ L cfg l h hcfg op (hops op List.mem_cons_self)
    obtain ⟨fuel', l', hsync, h'⟩ := ih (fun o ho => hops o (List.mem_cons_of_mem _ ho)) h₁
    refine ⟨fuel + fuel', l', ?_, h'⟩
    rw [Inotify.synchronous, run_mono hrun fuel', Nat.add_comm]
    exact synchronous_mono hsync fuel

/-- From any tree, and after any operations that do not bring directories from outside, the cache
mirrors the tree. -/
theorem inotify_mirrors_tree (hcfg : cfg.ReadsOk) (w : World root) (ops : List Op)
    (hops : ∀ op ∈ ops, op.isMoveIn = false) : ∃ d fuel l,
      reinitialize (linux L root) (started [root] w) = .ok d ∧
      synchronous L cfg fuel ops (idle d) = some (.ok l) ∧ Waiting l ∧ Mirrors l.d := by
  obtain ⟨d, hd, hstep, hroots, hq⟩ := @reinitialize_linux _ L w
  have hstart : Settled (idle d) := ⟨shape_idle hq, lag_of_inStep hstep hroots⟩
  obtain ⟨fuel, l, hsync, hl⟩ := hstart.synchronous (L := L) hcfg hops
  exact ⟨d, fuel, l, hd, hsync, hl.1.waiting, mirrors_of_inStep (inStep_of_lag hl.2)⟩

def demoOps : List Op :=
  [.mkdir [] "a".toList 2, .mkdir ["a".toList] "c".toList 3, .mkdir [] "b".toList 4,
    .rename [] "a".toList [] "b".toList, .mkdir [] "x".toList 5, .moveOut [] "x".toList,
    .mkdir [] "x".toList 6, .rmdir [] "x".toList]

def startedOn (w : World "r".toList) : Option (Dtree (World "r".toList)) :=
  ( reinitialize (linux ascending "r".toList) (started ["r".toList] w)).toOption

theorem startedOn_eq {w : World "r".toList} {d : Dtree (World "r".toList)}
    (h : reinitialize (linux ascending "r".toList) (started ["r".toList] w) = .ok d) :
    startedOn w = some d := by
  rw [startedOn, h]
  rfl

def hasBC : Except (Exit (World "r".toList)) (Loop (World "r".toList)) → Bool
  | .ok l => decide (l.d.kernel.tree.Has ["b".toList, "c".toList])
  | .error _ => false

/-- Directory `a`, with its entry `c`, has replaced the empty directory `b`. -/
theorem inotify_mirrors_tree_run : ∃ d fuel, ∃ l : Loop (World "r".toList),
    reinitialize (linux ascending "r".toList) (started ["r".toList] rootOnly) = .ok d ∧
    synchronous ascending plain fuel demoOps (idle d) = some (.ok l) ∧ Waiting l ∧ Mirrors l.d ∧
    l.d.kernel.tree.Has ["b".toList, "c".toList] := by
  obtain ⟨d, fuel, l, hd, hsync, hwait, hl⟩ :=
    inotify_mirrors_tree (L := ascending) plain_readsOk rootOnly demoOps (by decide)
  have hrun : ((startedOn rootOnly).bind fun d =>
      synchronous ascending plain 9 demoOps (idle d)).map hasBC = some true := by
    decide +kernel
  rw [startedOn_eq hd, Option.bind_some] at hrun
  obtain ⟨r, hr, hbc⟩ := Option.map_eq_some_iff.mp hrun
  cases r with
  | error e => cases hbc
  | ok l' =>
    have hmore := synchronous_mono hsync 9
    rw [Nat.add_comm, synchronous_mono hr fuel, Option.some.injEq, Except.ok.injEq] at hmore
    exact ⟨d, fuel, l, hd, hsync, hwait, hl, hmore ▸ of_decide_eq_true hbc⟩

/-! ## A rename into the tree -/

/-- Notices that only change entries of the cache: the directories that appear are cached. -/
def Known (root : Path) : View → List Notice → Prop
  | _, [] => True
  | V, q :: Q => q.Enabled root V ∧
      (∀ wd n cookie p, q = .appeared wd n cookie → V wd = some p →
        ∃ v, V v = some (eventPath p n)) ∧
      Known root (q.apply V) Q

structure Skipping (W : View) (d : Dtree (World root)) (Q : List Notice) : Prop where
  cache : CacheOk d.wlCache
  roots : d.rootDirPaths = [some root]
  known : Known root (view d.wlCache) Q
  replay : replay (view d.wlCache) Q = W

theorem Skipping.handle {W : View} {q : Notice} (h : Skipping W d (q :: Q)) :
    ∃ d', Handles L cfg q d d' ∧ d'.kernel.queue = d.kernel.queue ∧
      d'.kernel.tree = d.kernel.tree ∧ Skipping W d' Q := by
  obtain ⟨hen, hknown, hrest⟩ := h.known
  cases hq : q.isAppeared with
  | false =>
    obtain ⟨d', hd, happ⟩ := @handles_of_enabled _ L cfg d q h.cache h.roots hq hen
    refine ⟨d', hd, by rw [happ.kernel], by rw [happ.kernel], happ.cache, happ.roots.trans h.roots,
      ?_, ?_⟩
    · rw [happ.view]
      exact hrest
    · rw [happ.view]
      exact h.replay
  | true =>
    cases q with
    | appeared wd n cookie =>
      obtain ⟨p, hp⟩ := Option.ne_none_iff_exists'.mp hen
      exact ⟨d, handles_known h.cache hp (hknown wd n cookie p rfl hp), rfl, rfl, h.cache, h.roots,
        hrest, h.replay⟩
    | _ => cases hq

theorem Skipping.handling (W : View) : Handling L cfg (@Skipping root W) where
  cache h := h.cache
  enabled h := h.known.1
  handle h := h.handle
  queue _ h := ⟨h.cache, h.roots, h.known, h.replay⟩

section MoveIn

variable (hd : InStep d) (hroots : d.rootDirPaths = [some root]) (hq : d.kernel.queue = [])
  (hcfg : cfg.ReadsOk) {sub : DirTree Name} {dir : List Name} {n : Name}
  (hw : d.kernel.apply (.moveIn sub dir n) = some w')
include hd hroots hq hcfg hw

theorem moveIn_found (hfree : ¬ d.kernel.tree.Has (dir ++ [n])) : ∃ fuel l,
    run (linux L root) cfg fuel (idle { d with kernel := w' }) = some (.ok l) ∧ Waiting l ∧
      l.d.kernel.tree = w'.tree ∧ InStep l.d := by
  obtain ⟨hun, htree, hW, -⟩ := World.apply_eq_some hw
  obtain ⟨-, -, hmem⟩ := DirTree.moveIn_eq_some htree
  have hnone : d.kernel.removedWatch (.moveIn sub dir n) = none := by
    rw [World.removedWatch, Op.removes, Option.bind_some, World.watchAt,
      DirTree.get?_eq_none.mpr hfree]
    rfl
  have hold (x : Dir Name) (hx : x ∈ d.kernel.tree.dirs) : x.comps ≠ dir ++ [n] := fun he =>
    hfree ⟨x, hx, he⟩
  have hlag : Lag { d with kernel := w' } ([] ++ _) :=
    (lag_of_inStep hd hroots).appear sub
      (fun x => (hmem x).trans (or_congr_left (and_iff_left_of_imp (hold x)))) hfree
      (some d.kernel.cookie) hun (by rw [hW, hnone]; rfl)
  have hshape := (shape_idle hq).change hw
  have hnotices : d.kernel.notices (.moveIn sub dir n) ++
      World.removedNotice (d.kernel.removedWatch (.moveIn sub dir n)) =
      (d.kernel.watchAt dir).toList.map fun wd => .appeared wd n (some d.kernel.cookie) := by
    rw [hnone, World.notices]
    cases d.kernel.watchAt dir <;> rfl
  rw [← hnotices] at hlag
  obtain ⟨fuel, l, hrun, hs, hl, ht⟩ := (Lag.handling (L := L)).settles hcfg hshape hlag
  exact ⟨fuel, l, hrun, hs.waiting, ht, inStep_of_lag hl⟩

/-- The notice of the new directory is skipped, since the one it replaces is in the cache; the slot
of that one is then deleted. -/
theorem moveIn_lost (hhas : d.kernel.tree.Has (dir ++ [n])) : ∃ fuel l,
    run (linux L root) cfg fuel (idle { d with kernel := w' }) = some (.ok l) ∧ Waiting l ∧
      l.d.kernel.tree = w'.tree ∧ CacheOk l.d.wlCache ∧
      ∀ v, view l.d.wlCache v ≠ some (pathOf root (dir ++ [n])) := by
  obtain ⟨b, hb, hbc⟩ := id hhas
  obtain ⟨wdb, hwdb⟩ := hd.watched b hb
  have hlag := lag_of_inStep hd hroots
  obtain ⟨wd, hwd, hp⟩ := hlag.watchAt_has (by simp) (hhas.above (List.prefix_append dir [n]))
  have hgone : d.kernel.watchAt (dir ++ [n]) = some wdb :=
    World.watchAt_eq_some.mpr ⟨b, hb, hbc, hwdb⟩
  have hbview : view d.wlCache wdb = some (pathOf root (dir ++ [n])) :=
    (hd.view wdb _).mpr ⟨b, hb, hwdb, by rw [dirPath, hbc]⟩
  have hpath : eventPath (pathOf root dir) n = pathOf root (dir ++ [n]) :=
    snprintf_of_has hhas (by simp)
  have hnotices : d.kernel.notices (.moveIn sub dir n) ++
      World.removedNotice (d.kernel.removedWatch (.moveIn sub dir n)) =
      [.appeared wd n (some d.kernel.cookie), .deleteSelf wdb, .ignored wdb] := by
    rw [World.notices, hwd, World.removedWatch, Op.removes, Option.bind_some, hgone]
    rfl
  have hskip : Skipping (Function.update (view d.wlCache) wdb none) { d with kernel := w' }
      [.appeared wd n (some d.kernel.cookie), .deleteSelf wdb, .ignored wdb] := by
    refine ⟨hd.cache, hroots, ⟨?_, ?_, ⟨_, hbview, ?_⟩, ?_, trivial, ?_, trivial⟩, rfl⟩
    · exact Option.ne_none_iff_exists'.mpr ⟨_, hp⟩
    · rintro v m c p ⟨⟩ hv
      obtain rfl : pathOf root dir = p := Option.some.inj (hp.symm.trans hv)
      exact ⟨wdb, by rw [hpath]; exact hbview⟩
    · have hne := dirPath_ne_root hb (by simp [hbc])
      rwa [dirPath, hbc] at hne
    · rintro v m c p ⟨⟩
    · rintro v m c p ⟨⟩
  have hshape := (shape_idle hq).change hw
  rw [List.nil_append] at hshape
  change Shape _ (d.kernel.notices (.moveIn sub dir n) ++
      World.removedNotice (d.kernel.removedWatch (.moveIn sub dir n))) at hshape
  rw [hnotices] at hshape
  obtain ⟨fuel, l, hrun, hs, hl, ht⟩ := (Skipping.handling (L := L) _).settles hcfg hshape hskip
  refine ⟨fuel, l, hrun, hs.waiting, ht, hl.cache, fun v hv => ?_⟩
  have hview : view l.d.wlCache = Function.update (view d.wlCache) wdb none := hl.replay
  rw [hview] at hv
  by_cases hvb : v = wdb
  · simp [hvb] at hv
  · rw [Function.update_of_ne hvb, hd.view] at hv
    obtain ⟨y, hy, hyv, hyp⟩ := hv
    obtain rfl := World.path_inj hy hb (hyp.trans (by rw [dirPath, hbc]))
    exact hvb (d.kernel.watches.injective v wdb _ hyv hwdb)

end MoveIn

/-- A subtree that is moved into the tree is in the cache afterwards exactly if the rename does not
replace a directory. -/
theorem inotify_moveIn_iff_free (hd : Mirrors d) (hroots : d.rootDirPaths = [some root])
    (hq : d.kernel.queue = []) (hcfg : cfg.ReadsOk) {sub : DirTree Name} {dir : List Name}
    {n : Name} (hw : d.kernel.apply (.moveIn sub dir n) = some w') : ∃ fuel l,
      run (linux L root) cfg fuel (idle { d with kernel := w' }) = some (.ok l) ∧ Waiting l ∧
        l.d.kernel.tree = w'.tree ∧ (Mirrors l.d ↔ ¬ d.kernel.tree.Has (dir ++ [n])) := by
  by_cases hhas : d.kernel.tree.Has (dir ++ [n])
  · obtain ⟨fuel, l, hrun, hwait, htree, hcache, hlost⟩ :=
      moveIn_lost (L := L) (inStep_of_mirrors hd) hroots hq hcfg hw hhas
    refine ⟨fuel, l, hrun, hwait, htree, fun hl => absurd hhas ?_, fun hfree => absurd hhas hfree⟩
    obtain ⟨-, hmoved, -, -⟩ := World.apply_eq_some hw
    obtain ⟨-, -, hmem⟩ := DirTree.moveIn_eq_some hmoved
    obtain ⟨t, ht, htop⟩ := sub.has_root
    have hx : (⟨t.ino, dir ++ [n] ++ t.comps⟩ : Dir Name) ∈ l.d.kernel.tree.dirs := by
      rw [htree]
      exact (hmem _).mpr (.inr ⟨t, ht, rfl⟩)
    obtain ⟨v, hv⟩ := (inStep_of_mirrors hl).watched _ hx
    have hview := ((inStep_of_mirrors hl).view v _).mpr ⟨_, hx, hv, rfl⟩
    rw [dirPath, htop, List.append_nil] at hview
    exact absurd hview (hlost v)
  · obtain ⟨fuel, l, hrun, hwait, htree, hl⟩ :=
      moveIn_found (L := L) (inStep_of_mirrors hd) hroots hq hcfg hw hhas
    exact ⟨fuel, l, hrun, hwait, htree, iff_of_true (mirrors_of_inStep hl) hhas⟩

/-- A directory with the entry `c`. -/
def outside : DirTree Name := (DirTree.single 7).graft (.single 8) [] "c".toList (by decide)

def moveX : Op := .moveIn outside [] "x".toList

theorem inotify_moveIn_iff_free_run : ∃ (d : Dtree (World "r".toList)) (w' : World "r".toList)
    (fuel : ℕ) (l : Loop (World "r".toList)), Mirrors d ∧ d.kernel.apply moveX = some w' ∧
      run (linux ascending "r".toList) plain fuel (idle { d with kernel := w' }) = some (.ok l) ∧
      Mirrors l.d := by
  obtain ⟨d, hd, hstep, hroots, hq⟩ := @reinitialize_linux "r".toList ascending rootOnly
  have happly : ((startedOn rootOnly).bind fun d => d.kernel.apply moveX).isSome = true := by
    decide +kernel
  have hfree : ¬ d.kernel.tree.Has ([] ++ ["x".toList]) := by
    have hno : (startedOn rootOnly).all
        (fun d => decide (¬ d.kernel.tree.Has ([] ++ ["x".toList]))) = true := by
      decide +kernel
    rw [startedOn_eq hd] at hno
    exact of_decide_eq_true hno
  rw [startedOn_eq hd, Option.bind_some] at happly
  obtain ⟨w', hw⟩ := Option.isSome_iff_exists.mp happly
  obtain ⟨fuel, l, hrun, -, -, hl⟩ := inotify_moveIn_iff_free (L := ascending)
    (mirrors_of_inStep hstep) hroots hq plain_readsOk hw
  exact ⟨d, w', fuel, l, mirrors_of_inStep hstep, hw, hrun, hl.mpr hfree⟩

def treeX : DirTree Name := (DirTree.single 1).graft (.single 2) [] "x".toList (by decide)

theorem nameable_treeX : Nameable "r".toList treeX := by decide

def withX : World "r".toList where
  tree := treeX
  watches := .empty
  queue := []
  cookie := 1
  nameable := nameable_treeX
  noSlash := noSlash_r

def lostX : Except (Exit (World "r".toList)) (Loop (World "r".toList)) → Bool
  | .ok l => decide (Waiting l) && decide (l.d.kernel.tree.Has ["x".toList]) &&
      !pathnameInCache l.d.wlCache "r/x".toList
  | .error _ => false

/-- The empty directory `r/x`, which is in the cache, is replaced by one from outside. -/
theorem inotify_moveIn_replaced : ∃ (d : Dtree (World "r".toList)) (w' : World "r".toList)
    (l : Loop (World "r".toList)), Mirrors d ∧ d.rootDirPaths = [some "r".toList] ∧
      d.kernel.queue = [] ∧ d.kernel.apply moveX = some w' ∧
      run (linux ascending "r".toList) plain 9 (idle { d with kernel := w' }) = some (.ok l) ∧
      Waiting l ∧ ¬ Mirrors l.d := by
  obtain ⟨d, hd, hstep, hroots, hq⟩ := @reinitialize_linux "r".toList ascending withX
  have hrun : ((startedOn withX).bind fun d => (d.kernel.apply moveX).bind fun w' =>
      run (linux ascending "r".toList) plain 9 (idle { d with kernel := w' })).map lostX =
        some true := by
    decide +kernel
  rw [startedOn_eq hd, Option.bind_some] at hrun
  obtain ⟨r, hr, hlost⟩ := Option.map_eq_some_iff.mp hrun
  obtain ⟨w', hw, hr⟩ := Option.bind_eq_some_iff.mp hr
  cases r with
  | error e => cases hlost
  | ok l =>
    simp only [lostX, Bool.and_eq_true, decide_eq_true_eq, Bool.not_eq_true'] at hlost
    obtain ⟨⟨hwait, x, hx, hxc⟩, hout⟩ := hlost
    refine ⟨d, w', l, mirrors_of_inStep hstep, hroots, hq, hw, hr, hwait, fun hl => ?_⟩
    obtain ⟨j, ⟨s, hj, hpos, hpath⟩, -⟩ := hl.complete x hx
    have hx' : dirPath "r".toList x = "r/x".toList := by
      rw [dirPath, hxc]
      decide
    have hin := pathnameInCache_iff.mpr ⟨s, List.mem_of_getElem? hj, hpos, hpath.trans hx'⟩
    rw [hout] at hin
    cases hin

end Tlpi.Inotify
