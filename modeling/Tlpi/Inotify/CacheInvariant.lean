import Mathlib.Tactic
import Tlpi.Inotify.Dtree
import Tlpi.Lib.Machine

/-! The representation invariant of the watch cache and of the list of root directories, over every
run of events and commands: whatever the events are and whatever the kernel answers, no slot is used
that does not hold the watch descriptor of the event. -/

namespace Tlpi.Inotify
open Lib

variable {σ : Type} {K : Kernel σ} {cfg : Config} {d : Dtree σ} {ev : Event}

structure Inv (d : Dtree σ) : Prop where
  cache : CacheOk d.wlCache
  ignore : d.ignoreRootDirs = d.rootDirPaths.count none
  monitored : d.ignoreRootDirs < d.rootDirPaths.length

structure ExitOk (e : Exit σ) : Prop where
  cache : CacheOk e.final.wlCache
  ignore : e.final.ignoreRootDirs = e.final.rootDirPaths.count none
  exits : e.why = .exitSuccess ↔ e.final.ignoreRootDirs = e.final.rootDirPaths.length
  why : e.why = .exitSuccess ∨ e.why = .aborted

/-- The results of `inotify_add_watch()` are descriptors and `ENOENT`. -/
def NoError (K : Kernel σ) : Prop := ∀ k p b, (K.addWatch k p b).2 ≠ .error

/-! ## Subtrees -/

theorem Inv.addSlot (h : Inv d) {n : ℕ} {p : Path} (hfresh : findWatch d.wlCache n = none) :
    Inv (d.addSlot n p) :=
  ⟨h.cache.addWatchToCache p (findWatch_none.mp hfresh), h.ignore, h.monitored⟩

theorem Inv.clearSlot (h : Inv d) (j : ℕ) : Inv (d.clearSlot j) :=
  ⟨h.cache.markCacheSlotEmpty j, h.ignore, h.monitored⟩

theorem Inv.kernel (h : Inv d) (k : σ) : Inv { d with kernel := k } :=
  ⟨h.cache, h.ignore, h.monitored⟩

theorem Inv.traverseTree (hK : NoError K) (h : Inv d) (entry : Path × Bool) :
    Ensures Inv ExitOk (traverseTree K d entry) := by
  unfold Inotify.traverseTree
  split_ifs with hdir
  · exact h
  · split
    · exact h.kernel _
    · next k hk => exact absurd (congrArg Prod.snd hk) (hK _ _ _)
    · next k wd hk =>
      dsimp only
      split_ifs with hfound
      · exact h.kernel k
      · exact (h.kernel k).addSlot (Option.not_isSome_iff_eq_none.mp hfound)

theorem Inv.watchSubtree (hK : NoError K) (h : Inv d) (p : Path) :
    Ensures Inv ExitOk (watchSubtree K d p) :=
  Ensures.foldlM (fun _ e _ hd => hd.traverseTree hK e) (h.kernel _)

/-- The loop of `zapSubtree()` empties slots and leaves the others as they are. -/
theorem zapSlots_getElem? (pn : Path) (j : ℕ) (wl : List Watch) (k : σ) (i : ℕ) :
    (zapSlots K pn j wl k).cache[i]? = wl[i]? ∨
      (zapSlots K pn j wl k).cache[i]? = some emptySlot := by
  induction wl generalizing j k i with
  | nil => exact .inl rfl
  | cons w wl ih =>
    simp only [zapSlots]
    split_ifs
    · cases i with
      | zero => exact .inr rfl
      | succ i => exact ih _ _ i
    · exact .inl rfl
    · cases i with
      | zero => exact .inl rfl
      | succ i => exact ih _ _ i

theorem CacheOk.of_emptied {wl wl' : List Watch} (h : CacheOk wl)
    (hc : ∀ i : ℕ, wl'[i]? = wl[i]? ∨ wl'[i]? = some emptySlot) : CacheOk wl' := by
  constructor
  · intro w hw
    obtain ⟨i, hi⟩ := List.mem_iff_getElem?.mp hw
    rcases hc i with he | he
    · exact h.slot w (List.mem_of_getElem? (he ▸ hi))
    · exact .inr (Option.some.inj (hi.symm.trans he))
  · intro i j v w hv hw hpos he
    have hold {i : ℕ} {w : Watch} (hw : wl'[i]? = some w) (hpos : 0 ≤ w.wd) : wl[i]? = some w := by
      rcases hc i with he | he
      · exact he ▸ hw
      · obtain rfl := Option.some.inj (hw.symm.trans he)
        exact absurd hpos (by decide)
    exact h.distinct i j v w (hold hv hpos) (hold hw (he ▸ hpos)) hpos he

theorem Inv.zapSubtree (h : Inv d) (p : Path) : Inv (zapSubtree K d p).1 :=
  ⟨h.cache.of_emptied (zapSlots_getElem? p 0 d.wlCache d.kernel), h.ignore, h.monitored⟩

theorem Inv.rebuilt (hK : NoError K) (h : Inv d) : Ensures Inv ExitOk ( reinitialize K d) :=
  Ensures.foldlM (fun _ p _ hd => hd.watchSubtree hK p) ⟨cacheOk_nil, h.ignore, h.monitored⟩

theorem Inv.discard (hK : NoError K) (h : Inv d) :
    Ensures (fun r => Inv r.1) ExitOk (discard K d) :=
  (h.rebuilt hK).bind fun _ => id

theorem Inv.zapOrDiscard (hK : NoError K) (h : Inv d) (p : Path) :
    Ensures (fun r => Inv r.1) ExitOk (zapOrDiscard K d p) := by
  unfold Inotify.zapOrDiscard
  split_ifs
  · exact h.zapSubtree p
  · exact (h.zapSubtree p).discard hK

/-! ## Root directories -/

theorem isRootDirPath_iff {roots : List (Option Path)} {p : Path} :
    isRootDirPath roots p = true ↔ some p ∈ roots := by
  rw [isRootDirPath, findRootDirPath, List.findIdx?_isSome, List.any_eq_true]
  simp

theorem count_set_none {roots : List (Option Path)} {j : ℕ} {p : Path}
    (hj : roots[j]? = some (some p)) : (roots.set j none).count none = roots.count none + 1 := by
  obtain ⟨hlt, he⟩ := List.getElem?_eq_some_iff.mp hj
  rw [List.count_set hlt, he]
  simp

theorem Inv.zapRootDirPath (h : Inv d) {p : Path} (hp : isRootDirPath d.rootDirPaths p = true) :
    Ensures Inv ExitOk (zapRootDirPath d p) := by
  unfold Inotify.zapRootDirPath
  split
  · next hnone =>
    rw [isRootDirPath, hnone] at hp
    cases hp
  · next j hj =>
    obtain ⟨hlt, he, -⟩ := List.findIdx?_eq_some_iff_getElem.mp hj
    have hget : d.rootDirPaths[j]? = some (some p) := by
      rw [List.getElem?_eq_getElem hlt, of_decide_eq_true he]
    have hcount : d.ignoreRootDirs + 1 = (d.rootDirPaths.set j none).count none := by
      rw [count_set_none hget, h.ignore]
    have hlen : (d.dropRoot j).rootDirPaths.length = d.rootDirPaths.length := List.length_set
    split_ifs with hall
    · exact ⟨h.cache, hcount, by simp [Dtree.dropRoot, hall], .inl rfl⟩
    · exact ⟨h.cache, hcount, hlen ▸ lt_of_le_of_ne h.monitored hall⟩

/-! ## Events -/

theorem findWatchChecked_spec (h : Inv d) (wd : ℤ) :
    Ensures (fun slot => findWatch d.wlCache wd = slot) ExitOk (findWatchChecked cfg d wd) := by
  unfold findWatchChecked
  split
  · assumption
  · split_ifs
    · exact ⟨h.cache, h.ignore, by simp [h.monitored.ne], .inr rfl⟩
    · assumption

/-- The slot of the event's watch descriptor can be used. -/
theorem useSlot_found {j : ℕ} (hj : findWatch d.wlCache ev.wd = some j) :
    ∃ p, useSlot d ev (some j) = .ok (j, p) ∧ d.wlCache[j]? = some ⟨ev.wd, p⟩ := by
  obtain ⟨⟨wd, p⟩, hw, rfl⟩ := findWatch_some hj
  exact ⟨p, by simp [useSlot, hw], hw⟩

section Handlers

variable (hK : NoError K) (h : Inv d) {j : ℕ} (hj : findWatch d.wlCache ev.wd = some j)
include hK h hj

theorem Inv.onCreate : Ensures (fun r => Inv r.1) ExitOk (onCreate K d ev (some j)) := by
  obtain ⟨p, hp, -⟩ := useSlot_found hj
  simp only [Inotify.onCreate, hp, ok_bind]
  split_ifs
  · exact h
  · exact (h.watchSubtree hK _).bind fun _ => id

omit hK in
theorem Inv.onDeleteSelf : Ensures (fun r => Inv r.1) ExitOk (onDeleteSelf d ev (some j)) := by
  obtain ⟨p, hp, -⟩ := useSlot_found hj
  simp only [Inotify.onDeleteSelf, hp, ok_bind]
  split_ifs with hroot
  · refine (h.zapRootDirPath hroot).bind fun d' hd' => ?_
    exact hd'.clearSlot j
  · exact h.clearSlot j

theorem Inv.movedOut : Ensures (fun r => Inv r.1) ExitOk (movedOut K d ev (some j)) := by
  obtain ⟨p, hp, -⟩ := useSlot_found hj
  simp only [Inotify.movedOut, hp, ok_bind]
  exact h.zapOrDiscard hK _

theorem Inv.renamed (next : Event) :
    Ensures (fun r => Inv r.1) ExitOk (renamed K cfg d ev (some j) next) := by
  obtain ⟨p, hp, -⟩ := useSlot_found hj
  refine (findWatchChecked_spec h next.wd).bind fun slot hslot => ?_
  split
  · exact h.discard hK
  · next i =>
    obtain ⟨q, hq, -⟩ : ∃ q, useSlot d next (some i) = .ok (i, q) ∧ _ := useSlot_found hslot
    simp only [hp, hq, ok_bind]
    exact ⟨h.cache.rewriteCachedPaths _ _ _ _, h.ignore, h.monitored⟩

theorem Inv.onMovedFrom (next : Option Event) (firstTry : Bool) :
    Ensures (fun r => Inv r.1) ExitOk (onMovedFrom K cfg d ev (some j) next firstTry) := by
  unfold Inotify.onMovedFrom
  split
  · split_ifs
    · exact h.renamed hK hj _
    · exact h.movedOut hK hj
  · split_ifs
    · exact h
    · exact h.movedOut hK hj

omit hK in
theorem Inv.onUnmount : Ensures (fun r => Inv r.1) ExitOk (onUnmount d ev (some j)) := by
  obtain ⟨p, hp, -⟩ := useSlot_found hj
  simp only [Inotify.onUnmount, hp, ok_bind]
  exact h.clearSlot j

theorem Inv.onMoveSelf : Ensures (fun r => Inv r.1) ExitOk (onMoveSelf K d ev (some j)) := by
  obtain ⟨p, hp, -⟩ := useSlot_found hj
  simp only [Inotify.onMoveSelf, hp, ok_bind]
  split_ifs with hroot
  · exact (h.zapRootDirPath hroot).bind fun _ hd' => hd'.zapOrDiscard hK _
  · exact h

theorem Inv.dispatch (next : Option Event) (firstTry : Bool) :
    Ensures (fun r => Inv r.1) ExitOk (dispatch K cfg d ev (some j) next firstTry) := by
  cases dispatch_handler ev with
  | create he =>
    rw [he]
    exact h.onCreate hK hj
  | deleteSelf he =>
    rw [he]
    exact h.onDeleteSelf hj
  | movedFrom he =>
    rw [he]
    exact h.onMovedFrom hK hj next firstTry
  | overflow he =>
    rw [he]
    exact h.discard hK
  | unmount he =>
    rw [he]
    exact h.onUnmount hj
  | moveSelf he =>
    rw [he]
    exact h.onMoveSelf hK hj
  | none he =>
    rw [he]
    exact h

end Handlers

/-- The event types other than `IN_IGNORED`. -/
def Mask.typed (m : Mask) : Bool :=
  m.create || m.deleteSelf || m.moveSelf || m.movedFrom || m.movedTo || m.qOverflow || m.unmount

structure WellFormed (ev : Event) : Prop where
  overflow : ev.wd = -1 → ev.mask = { qOverflow := true }
  ignored : ev.mask.ignored = true → ev.mask.typed = false

instance (ev : Event) : Decidable (WellFormed ev) :=
  decidable_of_iff ((ev.wd = -1 → ev.mask = { qOverflow := true }) ∧
    (ev.mask.ignored = true → ev.mask.typed = false)) ⟨fun h => ⟨h.1, h.2⟩, fun h => ⟨h.1, h.2⟩⟩

/-- An event for which no slot is looked up does not use one. -/
theorem Inv.dispatch_none (hK : NoError K) (h : Inv d) (hev : WellFormed ev)
    (hno : ¬ (ev.wd ≠ -1 ∧ ev.mask.ignored = false)) (next : Option Event) (firstTry : Bool) :
    Ensures (fun r => Inv r.1) ExitOk (Inotify.dispatch K cfg d ev none next firstTry) := by
  by_cases hwd : ev.wd = -1
  · simp only [Inotify.dispatch, hev.overflow hwd]
    exact h.discard hK
  · have hign : ev.mask.ignored = true := by simpa [hwd] using hno
    have htyped := hev.ignored hign
    simp only [Mask.typed, Bool.or_eq_false_iff] at htyped
    simpa [Inotify.dispatch, htyped] using h

theorem Inv.processEvent (hK : NoError K) (h : Inv d) (hev : WellFormed ev) (next : Option Event)
    (firstTry : Bool) :
    Ensures (fun r => Inv r.1) ExitOk (processEvent K cfg d ev next firstTry) := by
  unfold Inotify.processEvent
  split_ifs with hlook
  · refine (findWatchChecked_spec h ev.wd).bind fun slot hslot => ?_
    split
    · exact h.discard hK
    · exact h.dispatch hK hslot next firstTry
  · exact h.dispatch_none hK hev hlook next firstTry

theorem Inv.executeCommand (hK : NoError K) (h : Inv d) (cmd : Cmd) :
    Ensures Inv ExitOk (executeCommand K d cmd) := by
  cases cmd with
  | add arg => exact (h.zapSubtree arg).watchSubtree hK arg
  | zap arg => exact h.zapSubtree arg
  | rebuild => exact h.rebuilt hK

/-! ## Runs -/

/-- The state of the process, also when it has ended. -/
def stateOf : Except (Exit σ) (Dtree σ) → Dtree σ
  | .ok d => d
  | .error e => e.final

inductive Act
  | event (ev : Event) (rest : List Event) (bufSize : ℤ) (firstTry : Bool)
  | command (cmd : Cmd)

/-- Events and commands after the initial build of the cache for at least one root directory. -/
def cacheMachine (K : Kernel σ) (cfg : Config) : Machine (Except (Exit σ) (Dtree σ)) Act where
  init r := ∃ roots k, roots ≠ [] ∧ r = reinitialize K (started roots k)
  step
    | .ok d, .event ev rest bufSize firstTry =>
      if ∀ e ∈ ev :: rest, WellFormed e then
        some (Prod.fst <$> processNextInotifyEvent K cfg d ev rest bufSize firstTry)
      else none
    | .ok d, .command cmd => some (executeCommand K d cmd)
    | .error _, _ => none

theorem inv_started {roots : List Path} (h : roots ≠ []) (k : σ) : Inv (started roots k) := by
  refine ⟨cacheOk_nil, ?_, ?_⟩
  · have hnone : none ∉ roots.map some := by simp
    exact (List.count_eq_zero.mpr hnone).symm
  · simpa [started] using List.length_pos_iff.mpr h

theorem ensures_step (hK : NoError K) {r r' : Except (Exit σ) (Dtree σ)} (a : Act)
    (h : Ensures Inv ExitOk r) (hs : (cacheMachine K cfg).step r a = some r') :
    Ensures Inv ExitOk r' := by
  cases r with
  | error e => cases a <;> cases hs
  | ok d =>
    cases a with
    | event ev rest bufSize firstTry =>
      simp only [cacheMachine, Option.ite_none_right_eq_some, Option.some.injEq] at hs
      obtain ⟨hev, rfl⟩ := hs
      have hnext : Ensures (fun r => Inv r.1) ExitOk
          (processEvent K cfg d ev (nextEvent ev rest bufSize) firstTry) :=
        h.processEvent hK (hev ev List.mem_cons_self) _ firstTry
      rw [map_eq_pure_bind]
      exact Ensures.bind hnext fun _ => id
    | command cmd => exact Option.some.inj hs ▸ h.executeCommand hK cmd

/-- In every run: descriptors in use are non-negative and in one slot each, other slots are empty,
slots are used only while they hold the descriptor of the event, and the process ends, but for an
abort, exactly when the last root directory has gone. -/
theorem inotify_cache_invariant (hK : NoError K) {r : Except (Exit σ) (Dtree σ)}
    (hr : (cacheMachine K cfg).Reachable r) :
    (∀ (i j : ℕ) (v w : Watch), (stateOf r).wlCache[i]? = some v →
      (stateOf r).wlCache[j]? = some w → 0 ≤ v.wd → v.wd = w.wd → i = j) ∧
    (∀ w ∈ (stateOf r).wlCache, 0 ≤ w.wd ∨ w.wd = -1 ∧ w.path = []) ∧
    (∀ e, r = .error e → e.why = .exitSuccess ∨ e.why = .aborted) ∧
    (stateOf r).ignoreRootDirs = (stateOf r).rootDirPaths.count none ∧
    ((∃ d, r = .error ⟨.exitSuccess, d⟩) ↔
      (stateOf r).ignoreRootDirs = (stateOf r).rootDirPaths.length) := by
  have h : Ensures Inv ExitOk r := by
    refine hr.invariant ?_ fun _ a _ => ensures_step hK a
    rintro _ ⟨roots, k, hroots, rfl⟩
    exact (inv_started hroots k).rebuilt hK
  have hslot {wl : List Watch} (hc : CacheOk wl) (w : Watch) (hw : w ∈ wl) :
      0 ≤ w.wd ∨ w.wd = -1 ∧ w.path = [] := by
    rcases hc.slot w hw with hpos | rfl
    · exact .inl hpos
    · exact .inr ⟨rfl, rfl⟩
  cases r with
  | ok d =>
    refine ⟨h.cache.distinct, hslot h.cache, by simp, h.ignore, ?_⟩
    simpa [stateOf] using h.monitored.ne
  | error e =>
    refine ⟨h.cache.distinct, hslot h.cache, ?_, h.ignore, ?_⟩
    · rintro _ ⟨⟩
      exact h.why
    · refine Iff.trans ?_ h.exits
      constructor
      · rintro ⟨d, ⟨⟩⟩
        rfl
      · intro hw
        exact ⟨e.final, by rw [← hw]⟩

theorem counting_noError : NoError counting := fun k p b => by simp [counting]

theorem inotify_cache_invariant_run : ∃ r, (cacheMachine counting plain).Reachable r ∧
    (∃ d, r = .error ⟨.exitSuccess, d⟩) ∧
    (stateOf r).ignoreRootDirs = (stateOf r).rootDirPaths.length := by
  obtain ⟨r, hr, hp⟩ := Machine.exists_reachable_of_exec (M := cacheMachine counting plain)
    ⟨["r".toList], 0, by simp, rfl⟩
    [.event ⟨0, { create := true, isdir := true }, 0, 16, "a".toList⟩ [] 32 true,
      .event ⟨5, { unmount := true }, 0, 0, []⟩ [] 16 true, .command (.zap "r/a".toList),
      .event ⟨2, { deleteSelf := true }, 0, 0, []⟩ [] 16 true]
    (fun r => match r with
      | .error e => decide (e.why = .exitSuccess)
      | .ok _ => false) (by decide +kernel)
  have hexit : ∃ d, r = .error ⟨.exitSuccess, d⟩ := by
    cases r with
    | ok d => cases hp
    | error e => exact ⟨e.final, by rw [← of_decide_eq_true hp]⟩
  have h := inotify_cache_invariant counting_noError hr
  exact ⟨r, hr, hexit, h.2.2.2.2.mp hexit⟩

end Tlpi.Inotify
