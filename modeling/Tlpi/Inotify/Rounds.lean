import Mathlib.Tactic
import Tlpi.Inotify.Traversal

/-! Rounds of the loop of `processInotifyEvents()` on the kernel of `Linux`. What has been read and
what is still queued is a list of notices; a round fetches events, or handles the first notice. What
a notice does to the cache is an operation on the map the cache stands for, except for a directory
that appears, for which the tree is traversed. -/

namespace Tlpi.Inotify
open Lib

/-! ## Notices as operations -/

namespace Notice

def isAppeared : Notice → Bool
  | .appeared _ _ _ => true
  | _ => false

def isRenamed : Notice → Bool
  | .renamed _ _ _ _ _ => true
  | _ => false

def Valid : Notice → Prop
  | .appeared _ name _ => ValidName name
  | .movedOut _ name _ => ValidName name
  | .renamed _ name _ name' _ => ValidName name ∧ ValidName name'
  | .deleteSelf _ => True
  | .ignored _ => True

def apply (V : View) : Notice → View
  | .renamed wd name wd' name' _ =>
    match V wd, V wd' with
    | some p, some p' => fun v => (V v).map (rewritePath (entryPath p name) (entryPath p' name'))
    | _, _ => V
  | .deleteSelf wd => Function.update V wd none
  | _ => V

/-- The descriptors of the notice are in the cache, and the root directory stays. -/
def Enabled (root : Path) (V : View) : Notice → Prop
  | .appeared wd _ _ => V wd ≠ none
  | .movedOut _ _ _ => False
  | .renamed wd _ wd' _ _ => V wd ≠ none ∧ V wd' ≠ none
  | .deleteSelf wd => ∃ p, V wd = some p ∧ p ≠ root
  | .ignored _ => True

theorem events_ne_nil (q : Notice) : q.events ≠ [] := by
  cases q with
  | appeared wd name cookie => cases cookie <;> simp [events]
  | _ => simp [events]

end Notice

def MAX_EVENT : ℤ := 16 + NAME_MAX + 1

theorem size_named {wd : ℕ} {mask : Mask} {cookie : ℕ} {name : Name} (h : ValidName name) :
    (named wd mask cookie name).size ≤ MAX_EVENT := by
  have hlen := h.length_le
  simp only [NAME_MAX] at hlen
  simp only [Event.size, named, nameLen, MAX_EVENT, NAME_MAX]
  omega

theorem size_selfEvent (wd : ℕ) (mask : Mask) : (selfEvent wd mask).size ≤ MAX_EVENT := by
  simp [Event.size, selfEvent, MAX_EVENT, NAME_MAX]

theorem Notice.size_le {q : Notice} (h : q.Valid) : ∀ ev ∈ q.events, ev.size ≤ MAX_EVENT := by
  cases q with
  | appeared wd name cookie => cases cookie <;> simp [events, size_named h]
  | movedOut wd name cookie => simp [events, size_named h]
  | renamed wd name wd' name' cookie => simp [events, size_named h.1, size_named h.2]
  | deleteSelf wd => simp [events, size_selfEvent]
  | ignored wd => simp [events, size_selfEvent]

/-! ## The handlers -/

theorem findWatchChecked_found {σ : Type} {cfg : Config} {d : Dtree σ} {wd : ℤ} {j : ℕ}
    (h : findWatch d.wlCache wd = some j) : findWatchChecked cfg d wd = .ok (some j) := by
  rw [findWatchChecked, h]

section Handlers

variable {σ : Type} {K : Kernel σ} {cfg : Config} {d : Dtree σ} (h : CacheOk d.wlCache)
include h

theorem processEvent_slot {ev : Event} {wd : ℕ} {p : Path} (hwd : ev.wd = wd)
    (hign : ev.mask.ignored = false) (hp : view d.wlCache wd = some p) :
    ∃ j, d.wlCache[j]? = some ⟨wd, p⟩ ∧ useSlot d ev (some j) = .ok (j, p) ∧
      ∀ next firstTry, processEvent K cfg d ev next firstTry =
        dispatch K cfg d ev (some j) next firstTry := by
  cases hf : findWatch d.wlCache wd with
  | none =>
    rw [findWatch_eq_none h, hp] at hf
    cases hf
  | some j =>
    obtain ⟨p', hj, hp'⟩ := findWatch_view h hf
    obtain rfl : p = p' := Option.some.inj (hp.symm.trans hp')
    refine ⟨j, hj, by simp [useSlot, hj, hwd], fun next firstTry => ?_⟩
    have hlook : ev.wd ≠ -1 ∧ ev.mask.ignored = false := ⟨by omega, hign⟩
    rw [processEvent, if_pos hlook, findWatchChecked_found (hwd ▸ hf)]
    rfl

theorem processEvent_appeared {ev : Event} {wd : ℕ} {p : Path} (hwd : ev.wd = wd)
    (hign : ev.mask.ignored = false) (hdir : ev.mask.isdir = true)
    (happ : ev.mask.create = true ∨ ev.mask.movedTo = true) (hp : view d.wlCache wd = some p)
    (next : Option Event) (firstTry : Bool) : processEvent K cfg d ev next firstTry =
      if pathnameInCache d.wlCache (eventPath p ev.name) then .ok (d, .one)
      else watchSubtree K d (eventPath p ev.name) >>= fun d => .ok (d, .one) := by
  obtain ⟨j, -, huse, hdispatch⟩ := @processEvent_slot _ K cfg d h _ _ _ hwd hign hp
  rw [hdispatch, dispatch, if_pos ⟨hdir, happ⟩, onCreate, huse, ok_bind]
  rfl

theorem processEvent_hanging {wd : ℕ} {name : Name} {cookie : ℕ} {p : Path}
    (hp : view d.wlCache wd = some p) :
    processEvent K cfg d (named wd { movedFrom := true } cookie name) none true =
      .ok (d, .hanging) := by
  obtain ⟨j, -, -, hdispatch⟩ := @processEvent_slot _ K cfg d h
    (named wd { movedFrom := true } cookie name) wd p rfl rfl hp
  rw [hdispatch]
  rfl

end Handlers

variable {root : Path} {L : Choices} {cfg : Config} {d d' : Dtree (World root)} {q : Notice}

/-- The events of a notice take the program from `d` to `d'`, whatever comes after them. -/
inductive Handles (L : Choices) (cfg : Config) (q : Notice) (d d' : Dtree (World root)) : Prop
  | one {ev : Event} : q.events = [ev] → (∀ next firstTry,
      processEvent (linux L root) cfg d ev next firstTry = .ok (d', .one)) → Handles L cfg q d d'
  | pair {ev ev' : Event} : q.events = [ev, ev'] → (∀ firstTry,
      processEvent (linux L root) cfg d ev (some ev') firstTry = .ok (d', .pair)) →
      Handles L cfg q d d'

theorem handles_known {wd : ℕ} {name : Name} {cookie : Option ℕ} {p : Path} (h : CacheOk d.wlCache)
    (hp : view d.wlCache wd = some p) (hknown : ∃ v, view d.wlCache v = some (eventPath p name)) :
    Handles L cfg (.appeared wd name cookie) d d := by
  have hin := (pathnameInCache_view h).mpr hknown
  cases cookie <;> refine .one rfl fun next firstTry => ?_
  all_goals
    rw [processEvent_appeared h rfl rfl rfl (by simp [named]) hp]
    exact if_pos hin

theorem handles_unknown {wd : ℕ} {name : Name} {cookie : Option ℕ} {p : Path}
    (h : CacheOk d.wlCache) (hp : view d.wlCache wd = some p)
    (hnew : ∀ v, view d.wlCache v ≠ some (eventPath p name))
    (hd : watchSubtree (linux L root) d (eventPath p name) = .ok d') :
    Handles L cfg (.appeared wd name cookie) d d' := by
  have hout : ¬ pathnameInCache d.wlCache (eventPath p name) = true := by
    rw [pathnameInCache_view h]
    simpa using hnew
  cases cookie <;> refine .one rfl fun next firstTry => ?_
  all_goals
    rw [processEvent_appeared h rfl rfl rfl (by simp [named]) hp]
    refine (if_neg hout).trans ?_
    change (watchSubtree (linux L root) d (eventPath p name) >>= _) = _
    rw [hd, ok_bind]

/-- The cache changes as `Notice.apply` says. -/
structure Applied (q : Notice) (d d' : Dtree (World root)) : Prop where
  kernel : d'.kernel = d.kernel
  roots : d'.rootDirPaths = d.rootDirPaths
  cache : CacheOk d'.wlCache
  view : view d'.wlCache = q.apply (view d.wlCache)

theorem handles_ignored (h : CacheOk d.wlCache) (wd : ℕ) :
    Handles L cfg (.ignored wd) d d ∧ Applied (.ignored wd) d d :=
  ⟨.one rfl fun _ _ => rfl, rfl, rfl, h, rfl⟩

theorem handles_deleteSelf (h : CacheOk d.wlCache) (hroots : d.rootDirPaths = [some root]) {wd : ℕ}
    {p : Path} (hp : view d.wlCache wd = some p) (hne : p ≠ root) :
    ∃ d', Handles L cfg (.deleteSelf wd) d d' ∧ Applied (.deleteSelf wd) d d' := by
  obtain ⟨j, hj, huse, hdispatch⟩ := @processEvent_slot _ (linux L root) cfg d h
    (selfEvent wd { deleteSelf := true }) wd p rfl rfl hp
  have hroot : ¬ isRootDirPath d.rootDirPaths p = true := by
    rw [isRootDirPath_iff, hroots]
    simpa using hne
  refine ⟨d.clearSlot j, .one rfl fun next firstTry => ?_, rfl, rfl, h.markCacheSlotEmpty j,
    view_markCacheSlotEmpty h hj⟩
  rw [hdispatch]
  change onDeleteSelf d _ (some j) = _
  rw [onDeleteSelf, huse, ok_bind]
  dsimp only
  rw [if_neg hroot]
  rfl

theorem handles_renamed (h : CacheOk d.wlCache) {wd wd' cookie : ℕ} {name name' : Name}
    {p p' : Path} (hp : view d.wlCache wd = some p) (hp' : view d.wlCache wd' = some p') :
    ∃ d', Handles L cfg (.renamed wd name wd' name' cookie) d d' ∧
      Applied (.renamed wd name wd' name' cookie) d d' := by
  obtain ⟨j, hj, huse, hdispatch⟩ := @processEvent_slot _ (linux L root) cfg d h
    (named wd { movedFrom := true } cookie name) wd p rfl rfl hp
  refine ⟨d.rewritePaths p name p' name', .pair rfl fun firstTry => ?_, rfl, rfl,
    h.rewriteCachedPaths p name p' name', ?_⟩
  · cases hf : findWatch d.wlCache wd' with
    | none =>
      rw [findWatch_eq_none h, hp'] at hf
      cases hf
    | some i =>
      obtain ⟨p'', hi, hp''⟩ := findWatch_view h hf
      obtain rfl : p' = p'' := Option.some.inj (hp'.symm.trans hp'')
      have hcheck : findWatchChecked cfg d (named wd' { movedTo := true } cookie name').wd =
          .ok (some i) := findWatchChecked_found hf
      have huse' : useSlot d (named wd' { movedTo := true } cookie name') (some i) =
          .ok (i, p') := by
        simp [useSlot, hi, named]
      rw [hdispatch]
      change onMovedFrom (linux L root) cfg d _ (some j) (some _) firstTry = _
      rw [onMovedFrom, if_pos ⟨rfl, rfl⟩, renamed, hcheck, ok_bind]
      dsimp only
      rw [huse, ok_bind]
      dsimp only
      rw [huse', ok_bind]
      rfl
  · change view (rewriteCachedPaths d.wlCache p name p' name') = _
    rw [view_rewriteCachedPaths]
    simp only [Notice.apply, hp, hp']

theorem handles_of_enabled (h : CacheOk d.wlCache) (hroots : d.rootDirPaths = [some root])
    (hq : q.isAppeared = false) (hen : q.Enabled root (view d.wlCache)) :
    ∃ d', Handles L cfg q d d' ∧ Applied q d d' := by
  cases q with
  | appeared wd name cookie => cases hq
  | movedOut wd name cookie => exact hen.elim
  | renamed wd name wd' name' cookie =>
    obtain ⟨p, hp⟩ := Option.ne_none_iff_exists'.mp hen.1
    obtain ⟨p', hp'⟩ := Option.ne_none_iff_exists'.mp hen.2
    exact handles_renamed h hp hp'
  | deleteSelf wd =>
    obtain ⟨p, hp, hne⟩ := hen
    exact handles_deleteSelf h hroots hp hne
  | ignored wd => exact ⟨d, handles_ignored h wd⟩

/-! ## The buffer and the queue -/

theorem fitting_append_drop (space : ℤ) (evs : List Event) :
    fitting space evs ++ evs.drop (fitting space evs).length = evs := by
  induction evs generalizing space with
  | nil => rfl
  | cons ev evs ih =>
    rw [fitting]
    split_ifs
    · rw [List.length_cons, List.drop_succ_cons, List.cons_append, ih]
    · rfl

/-- There is room in the buffer for the largest event, and what is read fits in it. -/
structure Config.ReadsOk (cfg : Config) : Prop where
  room : MAX_EVENT ≤ cfg.cnt
  fits : cfg.cnt ≤ INOTIFY_READ_BUF_LEN

def Dtree.withQueue (d : Dtree (World root)) (evs : List Event) : Dtree (World root) :=
  { d with kernel := { d.kernel with queue := evs } }

/-- A loop with the notices `Q` before it. -/
structure Shape (l : Loop (World root)) (Q : List Notice) : Prop where
  stream : l.buf ++ l.d.kernel.queue = Q.flatMap Notice.events
  valid : ∀ q ∈ Q, q.Valid
  count : l.buf = [] ∧ l.numRead ≤ 0 ∨ l.buf ≠ [] ∧ l.numRead = bytes l.buf
  retry : l.firstTry = false → 2 ≤ l.buf.length

def backlog (l : Loop (World root)) : ℕ :=
  4 * (l.buf.length + l.d.kernel.queue.length) + (if l.buf = [] then 2 else 0) +
    if l.firstTry then 1 else 0

variable {l : Loop (World root)} {Q : List Notice}

theorem Shape.numRead_nonpos (h : Shape l Q) (hbuf : l.buf = []) : ¬ 0 < l.numRead := by
  rcases h.count with hc | hc
  · exact not_lt.mpr hc.2
  · exact absurd hbuf hc.1

theorem Shape.numRead_eq (h : Shape l Q) (hbuf : l.buf ≠ []) : l.numRead = bytes l.buf := by
  rcases h.count with hc | hc
  · exact absurd hc.1 hbuf
  · exact hc.2

/-- The buffer starts with the events of the first notice. -/
theorem Shape.head {q : Notice} {ev e : Event} {evs tail : List Event} (h : Shape l (q :: Q))
    (hevs : q.events = ev :: evs) (hbuf : l.buf = e :: tail) :
    e = ev ∧ tail ++ l.d.kernel.queue = evs ++ Q.flatMap Notice.events := by
  have hstream := h.stream
  rwa [hbuf, List.flatMap_cons, hevs, List.cons_append, List.cons_append,
    List.cons.injEq] at hstream

theorem Shape.size_le (h : Shape l Q) {ev : Event} (hev : ev ∈ l.buf ++ l.d.kernel.queue) :
    ev.size ≤ MAX_EVENT := by
  rw [h.stream, List.mem_flatMap] at hev
  obtain ⟨q, hq, hev⟩ := hev
  exact Notice.size_le (h.valid q hq) ev hev

/-- A `read()` with room for one event moves a part of the queue to the buffer. -/
theorem read_spec {w : World root} {space : ℤ} (hne : w.queue ≠ [])
    (hroom : ∀ ev ∈ w.queue, ev.size ≤ space) : ∃ evs rest, evs ≠ [] ∧ w.queue = evs ++ rest ∧
      (linux L root).read w space = ({ w with queue := rest }, .events evs) := by
  refine ⟨fitting space w.queue, w.queue.drop (fitting space w.queue).length, ?_,
    (fitting_append_drop space w.queue).symm, ?_⟩
  · obtain ⟨ev, evs, hq⟩ := List.exists_cons_of_ne_nil hne
    rw [hq, fitting, if_pos (hroom ev (by simp [hq]))]
    simp
  · simp only [linux, World.read]
    split
    · next hnil => exact absurd hnil hne
    · next ev' evs' hq' =>
      rw [if_pos (hroom ev' (by simp [hq']))]

theorem shape_of_waits (h : Shape l Q) (hbuf : l.buf = []) (hq : l.d.kernel.queue = []) :
    Q = [] := by
  have hstream := h.stream
  rw [hbuf, hq, List.append_nil] at hstream
  cases Q with
  | nil => rfl
  | cons q Q =>
    rw [List.flatMap_cons, eq_comm, List.append_eq_nil_iff] at hstream
    exact absurd hstream.1 q.events_ne_nil

theorem Shape.firstRead (h : Shape l Q) (hcfg : cfg.ReadsOk) (hbuf : l.buf = [])
    (hq : l.d.kernel.queue ≠ []) : ∃ l', step (linux L root) cfg l = some (.ok l') ∧
      (∃ evs, l'.d = l.d.withQueue evs) ∧ Shape l' Q ∧ backlog l' < backlog l := by
  have hnum := h.numRead_nonpos hbuf
  have hready : (linux L root).ready l.d.kernel = true := by
    simpa [linux, List.isEmpty_iff] using hq
  obtain ⟨evs, rest, hne, hsplit, hread⟩ := @read_spec _ L _ _ hq fun ev hev =>
    (h.size_le (List.mem_append_right _ hev)).trans hcfg.room
  refine ⟨⟨l.d.withQueue rest, evs, bytes evs, true⟩, ?_, ⟨rest, rfl⟩,
    ⟨?_, h.valid, .inr ⟨hne, rfl⟩, by simp⟩, ?_⟩
  · rw [step, if_neg hnum, if_pos hready, Inotify.firstRead, hread]
    exact congrArg some (if_neg hne)
  · rw [← h.stream, hbuf, List.nil_append, hsplit]
    rfl
  · simp only [backlog, hbuf, hne, hsplit, Dtree.withQueue, List.length_append, if_true, if_false,
      List.length_nil]
    split_ifs <;> omega

theorem loopBody_consumed {σ : Type} {K : Kernel σ} {l : Loop σ} {ev : Event} {tail : List Event}
    {d' : Dtree σ} {ret : Ret} (evs rest : List Event) (hbuf : l.buf = ev :: tail)
    (hsplit : ev :: tail = evs ++ rest)
    (hne : evs ≠ []) (hret : ret.evLen ev tail = bytes evs)
    (h : processEvent K cfg l.d ev (nextEvent ev tail l.numRead) l.firstTry = .ok (d', ret)) :
    loopBody K cfg l = .ok ⟨d', rest, l.numRead - bytes evs, true⟩ := by
  rw [loopBody, hbuf]
  dsimp only
  rw [processNextInotifyEvent, h, ok_bind]
  dsimp only
  rw [hret, if_pos (bytes_pos hne), hsplit, dropBytes_append]
  rfl

theorem step_loopBody {σ : Type} {K : Kernel σ} {l : Loop σ} (h : 0 < l.numRead) :
    step K cfg l = some (loopBody K cfg l) := if_pos h

/-- The loop after the events of the first notice have been handled. -/
theorem Shape.consumed {q : Notice} {evs rest : List Event} (h : Shape l (q :: Q))
    (hevs : q.events = evs) (hbuf : l.buf = evs ++ rest) (hq : d'.kernel.queue = l.d.kernel.queue) :
    Shape ⟨d', rest, bytes rest, true⟩ Q ∧ backlog ⟨d', rest, bytes rest, true⟩ < backlog l := by
  have hstream := h.stream
  rw [hbuf, List.flatMap_cons, hevs, List.append_assoc, List.append_cancel_left_eq] at hstream
  refine ⟨⟨by rw [← hstream, hq], fun r hr => h.valid r (List.mem_cons_of_mem _ hr), ?_,
    by simp⟩, ?_⟩
  · by_cases hrest : rest = []
    · exact .inl ⟨hrest, by rw [hrest]; rfl⟩
    · exact .inr ⟨hrest, rfl⟩
  · have hlen : 1 ≤ evs.length := List.length_pos_iff.mpr (hevs ▸ q.events_ne_nil)
    simp only [backlog, hbuf, hq, List.length_append]
    split_ifs <;> omega

/-- An `IN_MOVED_FROM` at the end of the buffer gets its other half from the queue. -/
theorem Shape.secondRead {ev ev' : Event} {q : Notice} (h : Shape l (q :: Q))
    (hevs : q.events = [ev, ev']) (hbuf : l.buf = [ev])
    (hhang : processEvent (linux L root) cfg l.d ev none true = .ok (l.d, .hanging)) :
    ∃ l', step (linux L root) cfg l = some (.ok l') ∧ (∃ evs, l'.d = l.d.withQueue evs) ∧
      Shape l' (q :: Q) ∧ backlog l' < backlog l := by
  have hfirst : l.firstTry = true := by
    by_contra hf
    have := h.retry (by simpa using hf)
    simp [hbuf] at this
  have hnum : l.numRead = ev.size := by
    rw [h.numRead_eq (by simp [hbuf]), hbuf]
    simp
  have hqueue : l.d.kernel.queue = ev' :: Q.flatMap Notice.events := (h.head hevs hbuf).2
  have hsize : ev.size ≤ MAX_EVENT := h.size_le (by simp [hbuf])
  have hspace : MAX_EVENT ≤ INOTIFY_READ_BUF_LEN - l.numRead := by
    simp only [hnum, MAX_EVENT, INOTIFY_READ_BUF_LEN, NAME_MAX] at hsize ⊢
    omega
  obtain ⟨evs, rest, hne, hsplit, hread⟩ := @read_spec _ L _ _ (by rw [hqueue]; simp) fun ev hev =>
    (h.size_le (List.mem_append_right _ hev)).trans hspace
  refine ⟨⟨l.d.withQueue rest, l.buf ++ evs, l.numRead + bytes evs, false⟩, ?_, ⟨rest, rfl⟩,
    ⟨?_, h.valid, .inr ⟨by simp [hbuf], by simp [hbuf, hnum]⟩, fun _ => ?_⟩, ?_⟩
  · have hnext : nextEvent ev [] l.numRead = none := by simp [nextEvent]
    rw [step_loopBody (hnum ▸ ev.size_pos), loopBody, hbuf]
    dsimp only
    rw [processNextInotifyEvent, hnext, hfirst, hhang, ok_bind]
    change some (Inotify.secondRead (linux L root) l.d [ev] l.numRead) = _
    rw [Inotify.secondRead, hread]
    exact congrArg some (if_neg hne)
  · rw [← h.stream, hsplit]
    exact List.append_assoc _ _ _
  · have := List.length_pos_iff.mpr hne
    simp only [hbuf, List.length_append, List.length_singleton]
    omega
  · simp only [backlog, hbuf, hfirst, hsplit, Dtree.withQueue, List.length_append]
    simp
    omega

theorem Shape.handled {q : Notice} (h : Shape l (q :: Q)) (hbuf : l.buf ≠ [])
    (hhalf : ∀ ev ev', q.events = [ev, ev'] → l.buf ≠ [ev]) (hd : Handles L cfg q l.d d')
    (hq : d'.kernel.queue = l.d.kernel.queue) :
    ∃ l', Inotify.step (linux L root) cfg l = some (.ok l') ∧
      l'.d = d' ∧ Shape l' Q ∧ backlog l' < backlog l := by
  have hnum := h.numRead_eq hbuf
  have hstep := @step_loopBody cfg _ (linux L root) l (hnum ▸ bytes_pos hbuf)
  obtain ⟨e, tail, hcons⟩ := List.exists_cons_of_ne_nil hbuf
  cases hd with
  | one hevs hproc =>
    obtain ⟨rfl, -⟩ := h.head hevs hcons
    have hbody := loopBody_consumed [e] tail hcons rfl (by simp) (by simp [Ret.evLen]) (hproc _ _)
    have hleft : l.numRead - bytes [e] = bytes tail := by simp [hnum, hcons]
    rw [hstep, hbody, hleft]
    exact ⟨_, rfl, rfl, h.consumed hevs hcons hq⟩
  | pair hevs hproc =>
    obtain ⟨rfl, hstream⟩ := h.head hevs hcons
    cases tail with
    | nil => exact absurd hcons (hhalf _ _ hevs)
    | cons e' tail =>
      rw [List.cons_append, List.cons_append, List.cons.injEq] at hstream
      obtain ⟨rfl, -⟩ := hstream
      have hnext : nextEvent e (e' :: tail) l.numRead = some e' := by
        refine if_pos ?_
        rw [hnum, hcons, bytes_cons]
        have := bytes_pos (List.cons_ne_nil e' tail)
        omega
      have hbody := loopBody_consumed [e, e'] tail hcons rfl (by simp) (by simp [Ret.evLen])
        (hnext ▸ hproc _)
      have hleft : l.numRead - bytes [e, e'] = bytes tail := by simp [hnum, hcons]
      rw [hstep, hbody, hleft]
      exact ⟨_, rfl, rfl, h.consumed hevs hcons hq⟩

theorem Shape.waits (h : Shape l []) : Inotify.step (linux L root) cfg l = none := by
  obtain ⟨hbuf, hq⟩ := List.append_eq_nil_iff.mp h.stream
  have hnum := h.numRead_nonpos hbuf
  have hready : ¬ (linux L root).ready l.d.kernel = true := by
    simp [linux, hq]
  rw [Inotify.step, if_neg hnum, if_neg hready]

/-- What a round does: it waits, fetches events, or handles the first notice. -/
theorem Shape.step (h : Shape l Q) (hcfg : cfg.ReadsOk) (hc : CacheOk l.d.wlCache)
    (hen : ∀ q ∈ Q.head?, q.Enabled root (view l.d.wlCache)) :
    (Q = [] ∧ step (linux L root) cfg l = none) ∨
    (∃ l', step (linux L root) cfg l = some (.ok l') ∧ (∃ evs, l'.d = l.d.withQueue evs) ∧
      Shape l' Q ∧ backlog l' < backlog l) ∨
    ∃ q Q', Q = q :: Q' ∧ ∀ d', Handles L cfg q l.d d' → d'.kernel.queue = l.d.kernel.queue →
      ∃ l', step (linux L root) cfg l = some (.ok l') ∧ l'.d = d' ∧ Shape l' Q' ∧
        backlog l' < backlog l := by
  cases Q with
  | nil => exact .inl ⟨rfl, h.waits⟩
  | cons q Q =>
    right
    by_cases hbuf : l.buf = []
    · refine .inl (h.firstRead hcfg hbuf fun hq => ?_)
      cases shape_of_waits h hbuf hq
    · by_cases hhalf : ∃ ev ev', q.events = [ev, ev'] ∧ l.buf = [ev]
      · obtain ⟨ev, ev', hevs, hone⟩ := hhalf
        refine .inl (h.secondRead hevs hone ?_)
        have hq := hen q rfl
        cases q with
        | renamed wd name wd' name' cookie =>
          obtain ⟨p, hp⟩ := Option.ne_none_iff_exists'.mp hq.1
          obtain ⟨rfl, -⟩ := List.cons.inj hevs
          exact processEvent_hanging hc hp
        | appeared wd name cookie => cases cookie <;> simp [Notice.events] at hevs
        | _ => simp [Notice.events] at hevs
      · refine .inr ⟨q, Q, rfl, fun d' => h.handled hbuf fun ev ev' hevs hone => ?_⟩
        exact hhalf ⟨ev, ev', hevs, hone⟩

/-! ## Runs -/

/-- An invariant of the state and the notices before it that handling a notice preserves. -/
structure Handling (L : Choices) (cfg : Config) (I : Dtree (World root) → List Notice → Prop) :
    Prop where
  cache : ∀ {d Q}, I d Q → CacheOk d.wlCache
  enabled : ∀ {d q Q}, I d (q :: Q) → q.Enabled root (view d.wlCache)
  handle : ∀ {d q Q}, I d (q :: Q) →
    ∃ d', Handles L cfg q d d' ∧ d'.kernel.queue = d.kernel.queue ∧
      d'.kernel.tree = d.kernel.tree ∧ I d' Q
  queue : ∀ {d Q} (evs : List Event), I d Q → I (d.withQueue evs) Q

section Handling

variable {I : Dtree (World root) → List Notice → Prop} (H : Handling L cfg I) (hcfg : cfg.ReadsOk)
include H hcfg

theorem Handling.step (hs : Shape l Q) (hi : I l.d Q) :
    (Q = [] ∧ Inotify.step (linux L root) cfg l = none) ∨
    ∃ l' Q', Inotify.step (linux L root) cfg l = some (.ok l') ∧ Shape l' Q' ∧ I l'.d Q' ∧
      l'.d.kernel.tree = l.d.kernel.tree ∧ Q' ⊆ Q ∧ backlog l' < backlog l := by
  have hen : ∀ q ∈ Q.head?, q.Enabled root (view l.d.wlCache) := by
    cases Q with
    | nil => simp
    | cons q Q => simpa using H.enabled hi
  rcases hs.step (L := L) hcfg (H.cache hi) hen with
    hwait | ⟨l', hstep, ⟨evs, hd⟩, hs', hlt⟩ | ⟨q, Q', rfl, hall⟩
  · exact .inl hwait
  · exact .inr ⟨l', Q, hstep, hs', hd ▸ H.queue evs hi, by rw [hd]; rfl, List.Subset.refl Q, hlt⟩
  · obtain ⟨d', hd, hqueue, htree, hi'⟩ := H.handle hi
    obtain ⟨l', hstep, rfl, hs', hlt⟩ := hall d' hd hqueue
    exact .inr ⟨l', Q', hstep, hs', hi', htree, List.subset_cons_self q Q', hlt⟩

/-- The program comes to wait for events, with all notices handled. -/
theorem Handling.settles (hs : Shape l Q) (hi : I l.d Q) : ∃ fuel l',
    run (linux L root) cfg fuel l = some (.ok l') ∧ Shape l' [] ∧ I l'.d [] ∧
      l'.d.kernel.tree = l.d.kernel.tree := by
  induction hn : backlog l using Nat.strong_induction_on generalizing l Q with
  | _ n ih =>
    subst hn
    rcases H.step hcfg hs hi with ⟨rfl, hwait⟩ | ⟨l', Q', hstep, hs', hi', htree, -, hlt⟩
    · exact ⟨1, l, by simp [run, hwait], hs, hi, rfl⟩
    · obtain ⟨fuel, l'', hrun, hs'', hi'', htree'⟩ := ih _ hlt hs' hi' rfl
      exact ⟨fuel + 1, l'', by simpa [run, hstep] using hrun, hs'', hi'', htree'.trans htree⟩

end Handling

theorem run_mono {σ : Type} {K : Kernel σ} {fuel : ℕ} {l : Loop σ}
    {r : Except (Exit σ) (Loop σ)} (h : run K cfg fuel l = some r) (extra : ℕ) :
    run K cfg (fuel + extra) l = some r := by
  induction fuel generalizing l with
  | zero => cases h
  | succ fuel ih =>
    rw [Nat.add_right_comm, run]
    rw [run] at h
    cases hs : Inotify.step K cfg l with
    | none => rwa [hs] at h
    | some r' =>
      rw [hs] at h
      cases r' with
      | error e => exact h
      | ok l' => exact ih h

end Tlpi.Inotify
