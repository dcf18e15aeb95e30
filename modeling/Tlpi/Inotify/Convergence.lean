import Mathlib.Tactic
import Tlpi.Inotify.Changes
import Tlpi.Lib.Machine

/-! Runs in which another process changes the tree at any time between the rounds of the program. As
long as directories are renamed only while no `IN_CREATE` is waiting, the cache has the pathnames of
all directories whenever the program waits and the queue is empty. A directory that is renamed
before its `IN_CREATE` has been handled is lost. -/

namespace Tlpi.Inotify
open Lib

variable {root : Path} {L : Choices} {cfg : Config}

inductive LagAct
  | fs (op : Op)
  | process

abbrev LagState (root : Path) := Except (Exit (World root)) (Loop (World root))

/-- The program starts on an arbitrary tree; a state is `error` when the program has ended. -/
def lagMachine (L : Choices) (cfg : Config) (root : Path) : Machine (LagState root) LagAct where
  init r := ∃ w : World root, r = ( reinitialize (linux L root) (started [root] w)).map idle
  step r a :=
    match r, a with
    | .ok l, .fs op =>
      if op.Inside then
        (l.d.kernel.apply op).map fun w => .ok { l with d := { l.d with kernel := w } }
      else none
    | .ok l, .process => step (linux L root) cfg l
    | .error _, _ => none

/-- No `IN_CREATE` is in the buffer or in the queue when a directory is renamed. -/
def renamesSettled : LagState root → LagAct → Bool
  | .ok l, .fs op => !op.isRename || (l.buf ++ l.d.kernel.queue).all fun ev => !ev.mask.create
  | _, _ => true

/-- The program is in no round, and the queue is empty. -/
def Waiting (l : Loop (World root)) : Prop := l.numRead ≤ 0 ∧ l.d.kernel.queue = []

instance {l : Loop (World root)} : Decidable (Waiting l) := inferInstanceAs (Decidable (_ ∧ _))

/-- The pathnames of the slots in use are those of the directories at or below the root. -/
def PathsAgree (d : Dtree (World root)) : Prop :=
  ∀ p, (∃ s ∈ d.wlCache, 0 ≤ s.wd ∧ s.path = p) ↔ ∃ x ∈ d.kernel.tree.dirs, dirPath root x = p

def Notice.isMovedIn : Notice → Bool
  | .appeared _ _ (some _) => true
  | _ => false

/-- The invariant of the runs; directories do not come from outside. -/
def Following (l : Loop (World root)) : Prop :=
  ∃ Q, Shape l Q ∧ Lag l.d Q ∧ ∀ q ∈ Q, q.isMovedIn = false

theorem lag_of_inStep {d : Dtree (World root)} (h : InStep d)
    (hroots : d.rootDirPaths = [some root]) : Lag d [] := by
  refine lag_of_all_watched h.cache hroots (fun wd p hp => ?_) h.view h.watched trivial .nil
  obtain ⟨x, -, hwd, -⟩ := (h.view wd p).mp hp
  exact d.kernel.watches.owner_used wd _ hwd

theorem inStep_of_lag {d : Dtree (World root)} (h : Lag d []) : InStep d where
  cache := h.cache
  view := h.mirror
  watched := h.all_watched (by simp)

theorem shape_idle {d : Dtree (World root)} (hq : d.kernel.queue = []) : Shape (idle d) [] where
  stream := by simp [idle, hq]
  valid := by simp
  count := .inl ⟨rfl, le_rfl⟩
  retry := by simp [idle]

theorem following_init {r : LagState root} (h : (lagMachine L cfg root).init r) :
    ∃ l, r = .ok l ∧ Following l := by
  obtain ⟨w, rfl⟩ := h
  obtain ⟨d, hd, hstep, hroots, hq⟩ := @reinitialize_linux _ L w
  rw [hd]
  exact ⟨idle d, rfl, [], shape_idle hq, lag_of_inStep hstep hroots, by simp⟩

theorem isMovedIn_of_notices {w w' : World root} {op : Op} (hop : op.Inside = true)
    (hren : op.isRename = true → ∀ cs, w.tree.Has cs → w.watchAt cs ≠ none)
    (hw : w.apply op = some w') :
    ∀ q ∈ w.notices op ++ World.removedNotice (w.removedWatch op), q.isMovedIn = false := by
  obtain ⟨-, htree, -, -⟩ := World.apply_eq_some hw
  intro q hq
  rcases List.mem_append.mp hq with hq | hq
  · cases op with
    | mkdir dir name ino =>
      obtain ⟨wd, -, rfl⟩ := List.mem_map.mp hq
      rfl
    | rmdir dir name => cases hq
    | rename dir name dir' name' =>
      obtain ⟨hhas, hdir', -, -⟩ := DirTree.rename_eq_some htree
      have hdir := hren rfl dir (hhas.above (List.prefix_append dir [name]))
      obtain ⟨v, hv⟩ := Option.ne_none_iff_exists'.mp hdir
      obtain ⟨v', hv'⟩ := Option.ne_none_iff_exists'.mp (hren rfl dir' hdir')
      rw [World.notices, hv, hv'] at hq
      rw [List.mem_singleton.mp hq]
      rfl
    | moveOut dir name => cases hop
    | moveIn sub dir name => cases hop
  · cases hr : w.removedWatch op with
    | none => simp [hr, World.removedNotice] at hq
    | some wd =>
      simp only [hr, World.removedNotice, List.mem_cons, List.not_mem_nil, or_false] at hq
      rcases hq with rfl | rfl <;> rfl

/-- The condition on the events, as a condition on the notices. -/
theorem not_appeared_of_settled {l : Loop (World root)} {Q : List Notice} {op : Op} (hs : Shape l Q)
    (hin : ∀ q ∈ Q, q.isMovedIn = false) (hG : renamesSettled (.ok l) (.fs op) = true)
    (hop : op.isRename = true) : ∀ q ∈ Q, q.isAppeared = false := by
  have hall : ∀ ev ∈ l.buf ++ l.d.kernel.queue, ev.mask.create = false := by
    simpa only [renamesSettled, hop, Bool.not_true, Bool.false_or, List.all_eq_true,
      Bool.not_eq_true'] using hG
  rw [hs.stream] at hall
  intro q hq
  cases q with
  | appeared wd name cookie =>
    cases cookie with
    | none =>
      have hev := hall _ (List.mem_flatMap.mpr ⟨_, hq, List.mem_singleton_self _⟩)
      simp [named] at hev
    | some c => exact absurd (hin _ hq) (by simp [Notice.isMovedIn])
  | _ => rfl

theorem following_step (hcfg : cfg.ReadsOk) {l : Loop (World root)} (h : Following l) (a : LagAct)
    {r : LagState root} (hG : renamesSettled (.ok l) a = true)
    (hs : (lagMachine L cfg root).step (.ok l) a = some r) : ∃ l', r = .ok l' ∧ Following l' := by
  obtain ⟨Q, hshape, hlag, hin⟩ := h
  cases a with
  | fs op =>
    simp only [lagMachine, Option.ite_none_right_eq_some, Option.map_eq_some_iff] at hs
    obtain ⟨hop, w', hw, rfl⟩ := hs
    have hnone := not_appeared_of_settled hshape hin hG
    refine ⟨_, rfl, _, hshape.change hw, hlag.change hop hnone hw, fun q hq => ?_⟩
    rcases List.mem_append.mp hq with hq | hq
    · exact hin q hq
    · refine isMovedIn_of_notices hop (fun hren cs hcs => ?_) hw q hq
      obtain ⟨wd, hwd, -⟩ := hlag.watchAt_has (hnone hren) hcs
      simp [hwd]
  | process =>
    rcases (Lag.handling (L := L)).step hcfg hshape hlag with
      ⟨-, hwait⟩ | ⟨l', Q', hstep, hs', hl', -, hsub, -⟩
    · exact absurd (hwait.symm.trans hs) (by simp)
    · obtain rfl := Option.some.inj (hstep.symm.trans hs)
      exact ⟨l', rfl, Q', hs', hl', fun q hq => hin q (hsub hq)⟩

theorem pathsAgree_of_inStep {d : Dtree (World root)} (h : InStep d) : PathsAgree d := by
  intro p
  constructor
  · rintro ⟨⟨wd, q⟩, hs, hpos, rfl⟩
    obtain ⟨v, rfl⟩ := Int.eq_ofNat_of_zero_le hpos
    obtain ⟨x, hx, -, hp⟩ := (h.view v q).mp ((view_eq_some h.cache).mpr hs)
    exact ⟨x, hx, hp⟩
  · rintro ⟨x, hx, rfl⟩
    obtain ⟨v, hv⟩ := h.watched x hx
    exact ⟨_, (view_eq_some h.cache).mp ((h.view v _).mpr ⟨x, hx, hv, rfl⟩),
      Int.natCast_nonneg v, rfl⟩

theorem following_waiting {l : Loop (World root)} (h : Following l) (hw : Waiting l) :
    PathsAgree l.d := by
  obtain ⟨Q, hs, hl, -⟩ := h
  have hbuf : l.buf = [] := by
    rcases hs.count with hc | hc
    · exact hc.1
    · have := bytes_pos hc.1
      have := hw.1
      omega
  obtain rfl := shape_of_waits hs hbuf hw.2
  exact pathsAgree_of_inStep (inStep_of_lag hl)

/-- In runs in which directories are renamed only while no `IN_CREATE` is waiting, the program does
not end, and no directory is missing when it waits. -/
theorem inotify_lag_converges (hcfg : cfg.ReadsOk) {r : LagState root}
    (hr : (lagMachine L cfg root).ReachableUnder (fun s a => renamesSettled s a = true) r) :
    ∃ l, r = .ok l ∧ (Waiting l → PathsAgree l.d) := by
  have h : ∃ l, r = .ok l ∧ Following l := by
    refine hr.invariant (fun _ => following_init) ?_
    rintro _ a r ⟨l, rfl, hl⟩ hG hs
    exact following_step hcfg hl a hG hs
  obtain ⟨l, rfl, hl⟩ := h
  exact ⟨l, rfl, following_waiting hl⟩

/-! ## A run, and a directory that is lost -/

/-- Descriptors are given out in increasing order, directories read in the order of the tree. -/
def ascending : Choices where
  next used := used.sum + 1
  fresh used h := by
    have := List.le_sum_of_mem h
    omega
  order := id
  perm _ := .refl _

theorem noSlash_r : "r".toList.getLast? ≠ some '/' := by decide

def rootOnly : World "r".toList where
  tree := .single 1
  watches := .empty
  queue := []
  cookie := 1
  nameable := by decide
  noSlash := noSlash_r

theorem plain_readsOk : plain.ReadsOk := ⟨by decide, by decide⟩

def startOnly : LagState "r".toList :=
  ( reinitialize (linux ascending "r".toList) (started ["r".toList] rootOnly)).map idle

def mkdirA : LagAct := .fs (.mkdir [] "a".toList 2)
def renameAB : LagAct := .fs (.rename [] "a".toList [] "b".toList)

/-- The program waits, and the cache has, or has not, the directory `r/b`, which exists. -/
def waitsWith (cached : Bool) : LagState "r".toList → Bool
  | .ok l => decide (Waiting l) && decide (l.d.kernel.tree.Has ["b".toList]) &&
      (pathnameInCache l.d.wlCache "r/b".toList == cached)
  | .error _ => false

theorem inotify_lag_converges_run : ∃ l : Loop (World "r".toList),
    (lagMachine ascending plain "r".toList).ReachableUnder (fun s a => renamesSettled s a = true)
      (.ok l) ∧ l.d.kernel.tree.Has ["b".toList] ∧ Waiting l ∧ PathsAgree l.d := by
  obtain ⟨r, hr, hp⟩ := Machine.exists_reachableUnder_of_exec
    (M := lagMachine ascending plain "r".toList) (G := fun s a => renamesSettled s a = true)
    (s := startOnly) ⟨rootOnly, rfl⟩
    [mkdirA, .process, .process, renameAB, .process, .process] (waitsWith true) (by decide +kernel)
  obtain ⟨l, rfl, hagree⟩ := inotify_lag_converges plain_readsOk hr
  simp only [waitsWith, Bool.and_eq_true, decide_eq_true_eq] at hp
  exact ⟨l, hr, hp.1.2, hp.1.1, hagree hp.1.1⟩

/-- The directory is renamed before its `IN_CREATE` is read. -/
theorem inotify_lag_loses : ∃ l : Loop (World "r".toList),
    (lagMachine ascending plain "r".toList).Reachable (.ok l) ∧ Waiting l ∧ ¬ PathsAgree l.d := by
  obtain ⟨r, hr, hp⟩ := Machine.exists_reachable_of_exec
    (M := lagMachine ascending plain "r".toList) (s := startOnly) ⟨rootOnly, rfl⟩
    [mkdirA, renameAB, .process, .process, .process] (waitsWith false) (by decide +kernel)
  cases r with
  | error e => cases hp
  | ok l =>
    simp only [waitsWith, Bool.and_eq_true, decide_eq_true_eq, beq_iff_eq] at hp
    obtain ⟨⟨hwait, x, hx, hxc⟩, hout⟩ := hp
    refine ⟨l, hr, hwait, fun hagree => ?_⟩
    have hb : dirPath "r".toList x = "r/b".toList := by
      rw [dirPath, hxc]
      decide
    have hin := pathnameInCache_iff.mpr ((hagree _).mpr ⟨x, hx, hb⟩)
    rw [hout] at hin
    cases hin

end Tlpi.Inotify
