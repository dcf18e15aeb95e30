import Mathlib.Tactic
import Tlpi.Inotify.Dtree

/-! The way in which `read()` cuts the stream of events into chunks does not matter: what
`processInotifyEvents()` does is what `handleAll` does with the whole list of events. -/

namespace Tlpi.Inotify
open Lib

variable {σ τ : Type} {K : Kernel σ} {cfg : Config}

/-! ## Programs over two kernels in step -/

def Dtree.withKernel (d : Dtree σ) (k : τ) : Dtree τ :=
  ⟨d.wlCache, d.rootDirPaths, d.ignoreRootDirs, k, d.trace⟩

/-- Two kernels answer alike in related states, and related states stay related. -/
structure Sim (K' : Kernel τ) (K : Kernel σ) (R : τ → σ → Prop) : Prop where
  addWatch : ∀ {k' k}, R k' k → ∀ p b, (K'.addWatch k' p b).2 = (K.addWatch k p b).2 ∧
    R (K'.addWatch k' p b).1 (K.addWatch k p b).1
  rmWatch : ∀ {k' k}, R k' k → ∀ wd, (K'.rmWatch k' wd).2 = (K.rmWatch k wd).2 ∧
    R (K'.rmWatch k' wd).1 (K.rmWatch k wd).1
  nftw : ∀ {k' k}, R k' k → ∀ p, (K'.nftw k' p).2 = (K.nftw k p).2 ∧
    R (K'.nftw k' p).1 (K.nftw k p).1

def DRel (R : τ → σ → Prop) (d' : Dtree τ) (d : Dtree σ) : Prop :=
  ∃ k', d' = d.withKernel k' ∧ R k' d.kernel

def ERel (R : τ → σ → Prop) (e' : Exit τ) (e : Exit σ) : Prop :=
  e'.why = e.why ∧ DRel R e'.final e.final

section Sim

variable {K' : Kernel τ} {R F : τ → σ → Prop} (hS : Sim K' K R) (hRF : ∀ k' k, R k' k → F k' k)
  {d : Dtree σ} {k' : τ} (hk : R k' d.kernel)
include hS hRF hk

theorem Sim.traverseTree (entry : Path × Bool) :
    Related (DRel R) (ERel F) (traverseTree K' (d.withKernel k') entry)
      (traverseTree K d entry) := by
  unfold Inotify.traverseTree
  split_ifs
  · exact ⟨k', rfl, hk⟩
  · obtain ⟨hres, hst⟩ := hS.addWatch hk entry.1 (isRootDirPath d.rootDirPaths entry.1)
    have hadd : K'.addWatch (d.withKernel k').kernel entry.1
        (isRootDirPath (d.withKernel k').rootDirPaths entry.1) =
        K'.addWatch k' entry.1 (isRootDirPath d.rootDirPaths entry.1) := rfl
    rw [hadd]
    rcases h : K.addWatch d.kernel entry.1 (isRootDirPath d.rootDirPaths entry.1) with ⟨k1, r⟩
    rcases h' : K'.addWatch k' entry.1 (isRootDirPath d.rootDirPaths entry.1) with ⟨k2, r'⟩
    rw [h, h'] at hres hst
    obtain rfl : r' = r := hres
    cases r' with
    | enoent => exact ⟨k2, rfl, hst⟩
    | error => exact ⟨rfl, k2, rfl, hRF _ _ hst⟩
    | wd n =>
      change Related _ _ (if (findWatch d.wlCache n).isSome then _ else _) (if _ then _ else _)
      split_ifs
      · exact ⟨k2, rfl, hst⟩
      · exact ⟨k2, rfl, hst⟩

theorem Sim.watchSubtree (p : Path) :
    Related (DRel R) (ERel F) (watchSubtree K' (d.withKernel k') p) (watchSubtree K d p) := by
  obtain ⟨hres, hst⟩ := hS.nftw hk p
  unfold Inotify.watchSubtree
  change Related _ _ ((K'.nftw k' p).2.foldlM _ _) _
  rw [hres]
  refine Related.foldlM (fun d1' d1 e _ hd => ?_) ⟨_, rfl, hst⟩
  obtain ⟨k1, rfl, hk1⟩ := hd
  exact hS.traverseTree hRF hk1 e

omit hRF hk in
theorem Sim.zapSlots (pn : Path) (j : ℕ) (c : List Watch) {k' : τ} {k : σ} (hk : R k' k) :
    (zapSlots K' pn j c k').cache = (zapSlots K pn j c k).cache ∧
      (zapSlots K' pn j c k').slots = (zapSlots K pn j c k).slots ∧
      (zapSlots K' pn j c k').ok = (zapSlots K pn j c k).ok ∧
      R (zapSlots K' pn j c k').kernel (zapSlots K pn j c k).kernel := by
  induction c generalizing j k' k with
  | nil => exact ⟨rfl, rfl, rfl, hk⟩
  | cons w c ih =>
    obtain ⟨hres, hst⟩ := hS.rmWatch hk w.wd
    simp only [Inotify.zapSlots, hres]
    split_ifs
    · obtain ⟨h1, h2, h3, h4⟩ := ih (j + 1) hst
      exact ⟨by rw [h1], by rw [h2], h3, h4⟩
    · exact ⟨rfl, rfl, rfl, hst⟩
    · obtain ⟨h1, h2, h3, h4⟩ := ih (j + 1) hk
      exact ⟨by rw [h1], h2, h3, h4⟩

end Sim

/-- `R0` relates the states after the inotify descriptor has been opened anew. -/
structure EventSim (K' : Kernel τ) (K : Kernel σ) (R R0 F : τ → σ → Prop) : Prop where
  sim : Sim K' K R
  sim0 : Sim K' K R0
  reopen : ∀ {k' k}, R k' k → R0 (K'.reopen k') (K.reopen k)
  le : ∀ k' k, R k' k → F k' k
  le0 : ∀ k' k, R0 k' k → F k' k

def RetRel (R R0 : τ → σ → Prop) (r' : Dtree τ × Ret) (r : Dtree σ × Ret) : Prop :=
  r'.2 = r.2 ∧ DRel (if r.2 = .discard then R0 else R) r'.1 r.1

section Events

variable {K' : Kernel τ} {R R0 F : τ → σ → Prop} (hE : EventSim K' K R R0 F)
  {d : Dtree σ} {k' : τ} (hk : R k' d.kernel) (ev : Event) (slot : Option ℕ)
include hE hk

theorem EventSim.rebuilt :
    Related (DRel R0) (ERel F) ( reinitialize K' (d.withKernel k')) ( reinitialize K d) := by
  refine Related.foldlM (fun d1' d1 p _ hd => ?_) ⟨_, rfl, hE.reopen hk⟩
  obtain ⟨k1, rfl, hk1⟩ := hd
  exact hE.sim0.watchSubtree hE.le0 hk1 p

theorem EventSim.discard :
    Related (RetRel R R0) (ERel F) (discard K' (d.withKernel k')) (discard K d) :=
  (hE.rebuilt hk).bind fun _ _ h => ⟨rfl, h⟩

theorem EventSim.zapOrDiscard (p : Path) :
    Related (RetRel R R0) (ERel F) (zapOrDiscard K' (d.withKernel k') p) (zapOrDiscard K d p) := by
  obtain ⟨hcache, hslots, hok, hst⟩ := hE.sim.zapSlots p 0 d.wlCache hk
  have hzap : (zapSubtree K' (d.withKernel k') p).1 = (zapSubtree K d p).1.withKernel
      (zapSlots K' p 0 d.wlCache k').kernel := by
    simp only [zapSubtree, Dtree.withKernel, hcache, hslots]
  unfold Inotify.zapOrDiscard
  rw [hzap, show (zapSubtree K' (d.withKernel k') p).2 = (zapSubtree K d p).2 from hok]
  split_ifs
  · exact ⟨rfl, _, rfl, hst⟩
  · exact hE.discard hst

theorem EventSim.useSlot :
    Related Eq (ERel F) (useSlot (d.withKernel k') ev slot) (useSlot d ev slot) := by
  have herr (why : Halt) : ERel F ⟨why, d.withKernel k'⟩ ⟨why, d⟩ := ⟨rfl, k', rfl, hE.le _ _ hk⟩
  cases slot with
  | none => exact herr .fault
  | some j =>
    simp only [Inotify.useSlot, Dtree.withKernel]
    split
    · exact herr .fault
    · split_ifs
      · rfl
      · exact herr .fault

theorem EventSim.findWatchChecked (wd : ℤ) :
    Related Eq (ERel F) (findWatchChecked cfg (d.withKernel k') wd)
      (findWatchChecked cfg d wd) := by
  simp only [Inotify.findWatchChecked, Dtree.withKernel]
  split
  · rfl
  · split_ifs
    · exact ⟨rfl, k', rfl, hE.le _ _ hk⟩
    · rfl

theorem EventSim.zapRootDirPath (p : Path) :
    Related (DRel R) (ERel F) (zapRootDirPath (d.withKernel k') p) (zapRootDirPath d p) := by
  simp only [Inotify.zapRootDirPath, Dtree.withKernel]
  split
  · exact ⟨rfl, k', rfl, hE.le _ _ hk⟩
  · by_cases hall : d.ignoreRootDirs + 1 = d.rootDirPaths.length
    · simp only [hall, if_true]
      exact ⟨rfl, k', rfl, hE.le _ _ hk⟩
    · simp only [hall, if_false]
      exact ⟨k', rfl, hk⟩

theorem EventSim.onCreate : Related (RetRel R R0) (ERel F)
    (onCreate K' (d.withKernel k') ev slot) (onCreate K d ev slot) := by
  refine (hE.useSlot hk ev slot).bind ?_
  rintro ⟨j, dir⟩ _ rfl
  change Related _ _ (if pathnameInCache d.wlCache _ then _ else _) (if _ then _ else _)
  split_ifs
  · exact ⟨rfl, k', rfl, hk⟩
  · exact (hE.sim.watchSubtree hE.le hk _).bind fun _ _ h => ⟨rfl, h⟩

theorem EventSim.onDeleteSelf : Related (RetRel R R0) (ERel F)
    (onDeleteSelf (d.withKernel k') ev slot) (onDeleteSelf d ev slot) := by
  refine (hE.useSlot hk ev slot).bind ?_
  rintro ⟨j, path⟩ _ rfl
  change Related _ _ (if isRootDirPath d.rootDirPaths path then _ else _) (if _ then _ else _)
  split_ifs
  · refine (hE.zapRootDirPath hk path).bind ?_
    rintro _ d1 ⟨k1, rfl, hk1⟩
    exact ⟨rfl, k1, rfl, hk1⟩
  · exact ⟨rfl, k', rfl, hk⟩

theorem EventSim.movedOut : Related (RetRel R R0) (ERel F)
    (movedOut K' (d.withKernel k') ev slot) (movedOut K d ev slot) := by
  refine (hE.useSlot hk ev slot).bind ?_
  rintro ⟨j, dir⟩ _ rfl
  exact hE.zapOrDiscard hk _

theorem EventSim.renamed (next : Event) : Related (RetRel R R0) (ERel F)
    (renamed K' cfg (d.withKernel k') ev slot next) (renamed K cfg d ev slot next) := by
  refine (hE.findWatchChecked hk next.wd).bind ?_
  rintro (_ | j) _ rfl
  · exact hE.discard hk
  · refine (hE.useSlot hk ev slot).bind ?_
    rintro ⟨i, oldDir⟩ _ rfl
    refine (hE.useSlot hk next (some j)).bind ?_
    rintro ⟨i', newDir⟩ _ rfl
    exact ⟨rfl, k', rfl, hk⟩

theorem EventSim.onMovedFrom (next : Option Event) (firstTry : Bool) :
    Related (RetRel R R0) (ERel F)
    (onMovedFrom K' cfg (d.withKernel k') ev slot next firstTry)
    (onMovedFrom K cfg d ev slot next firstTry) := by
  unfold Inotify.onMovedFrom
  split
  · split_ifs
    · exact hE.renamed hk ev slot _
    · exact hE.movedOut hk ev slot
  · split_ifs
    · exact ⟨rfl, k', rfl, hk⟩
    · exact hE.movedOut hk ev slot

theorem EventSim.onUnmount : Related (RetRel R R0) (ERel F)
    (onUnmount (d.withKernel k') ev slot) (onUnmount d ev slot) := by
  refine (hE.useSlot hk ev slot).bind ?_
  rintro ⟨j, path⟩ _ rfl
  exact ⟨rfl, k', rfl, hk⟩

theorem EventSim.onMoveSelf : Related (RetRel R R0) (ERel F)
    (onMoveSelf K' (d.withKernel k') ev slot) (onMoveSelf K d ev slot) := by
  refine (hE.useSlot hk ev slot).bind ?_
  rintro ⟨j, path⟩ _ rfl
  change Related _ _ (if isRootDirPath d.rootDirPaths path then _ else _) (if _ then _ else _)
  split_ifs
  · refine (hE.zapRootDirPath hk path).bind ?_
    rintro _ d1 ⟨k1, rfl, hk1⟩
    exact hE.zapOrDiscard hk1 path
  · exact ⟨rfl, k', rfl, hk⟩

theorem EventSim.dispatch (next : Option Event) (firstTry : Bool) : Related (RetRel R R0) (ERel F)
    (dispatch K' cfg (d.withKernel k') ev slot next firstTry)
    (dispatch K cfg d ev slot next firstTry) := by
  cases dispatch_handler ev with
  | create h =>
    rw [h, h]
    exact hE.onCreate hk ev slot
  | deleteSelf h =>
    rw [h, h]
    exact hE.onDeleteSelf hk ev slot
  | movedFrom h =>
    rw [h, h]
    exact hE.onMovedFrom hk ev slot next firstTry
  | overflow h =>
    rw [h, h]
    exact hE.discard hk
  | unmount h =>
    rw [h, h]
    exact hE.onUnmount hk ev slot
  | moveSelf h =>
    rw [h, h]
    exact hE.onMoveSelf hk ev slot
  | none h =>
    rw [h, h]
    exact ⟨rfl, k', rfl, hk⟩

theorem EventSim.processEvent (next : Option Event) (firstTry : Bool) :
    Related (RetRel R R0) (ERel F) (processEvent K' cfg (d.withKernel k') ev next firstTry)
      (processEvent K cfg d ev next firstTry) := by
  unfold Inotify.processEvent
  split_ifs
  · refine (hE.findWatchChecked hk ev.wd).bind ?_
    rintro (_ | j) _ rfl
    · exact hE.discard hk
    · exact hE.dispatch hk ev (some j) next firstTry
  · exact hE.dispatch hk ev none next firstTry

end Events

/-! ## Chunks -/

/-- A kernel state with the events that are still to be read; `misfit` says that a chunk did not
fit in the space offered to `read()`. -/
structure Chunked (σ : Type) where
  base : σ
  chunks : List (List Event)
  misfit : Bool

def chunked (K : Kernel σ) : Kernel (Chunked σ) where
  addWatch k p b := ({ k with base := (K.addWatch k.base p b).1 }, (K.addWatch k.base p b).2)
  rmWatch k wd := ({ k with base := (K.rmWatch k.base wd).1 }, (K.rmWatch k.base wd).2)
  nftw k p := ({ k with base := (K.nftw k.base p).1 }, (K.nftw k.base p).2)
  -- the queue of the old descriptor is gone
  reopen k := { k with base := K.reopen k.base, chunks := [] }
  ready k := !k.chunks.isEmpty
  read k space :=
    match k.chunks with
    | [] => (k, .eintr)
    | c :: cs =>
      if bytes c ≤ space ∧ bytes c ≤ INOTIFY_READ_BUF_LEN then ({ k with chunks := cs }, .events c)
      else ({ k with misfit := true }, .error)

def withChunks (d : Dtree σ) (cs : List (List Event)) : Dtree (Chunked σ) :=
  d.withKernel ⟨d.kernel, cs, false⟩

theorem chunked_read_cons (d : Dtree σ) (c : List Event) (cs : List (List Event)) (space : ℤ) :
    (chunked K).read (withChunks d (c :: cs)).kernel space =
      if bytes c ≤ space ∧ bytes c ≤ INOTIFY_READ_BUF_LEN then (⟨d.kernel, cs, false⟩, .events c)
      else (⟨d.kernel, c :: cs, true⟩, .error) := rfl

theorem chunked_eventSim (cs : List (List Event)) : EventSim (chunked K) K
    (fun k' k => k' = ⟨k, cs, false⟩) (fun k' k => k' = ⟨k, [], false⟩)
    (fun k' k => k'.base = k) where
  sim := by constructor <;> (rintro _ k rfl; intros; exact ⟨rfl, rfl⟩)
  sim0 := by constructor <;> (rintro _ k rfl; intros; exact ⟨rfl, rfl⟩)
  reopen := by rintro _ k rfl; rfl
  le := by rintro _ k rfl; rfl
  le0 := by rintro _ k rfl; rfl

/-- All events of a list, one after the other; `skip` says that the first one has been handled
together with the event before it. -/
def handleAll (K : Kernel σ) (cfg : Config) :
    Bool → Dtree σ → List Event → Except (Exit σ) (Dtree σ)
  | _, d, [] => .ok d
  | true, d, _ :: rest => handleAll K cfg false d rest
  | false, d, ev :: rest => do
    let (d, ret) ← processEvent K cfg d ev rest.head? false
    if ret = .discard then return d else handleAll K cfg (ret = .pair) d rest

/-! ## What an event looks at -/

theorem processEvent_some (d : Dtree σ) (ev next : Event) (firstTry : Bool) :
    processEvent K cfg d ev (some next) firstTry = processEvent K cfg d ev (some next) false := rfl

theorem dispatch_none (d : Dtree σ) (ev : Event) (slot : Option ℕ) :
    dispatch K cfg d ev slot none true = .ok (d, .hanging) ∨
      ∀ next firstTry,
        dispatch K cfg d ev slot next firstTry = dispatch K cfg d ev slot none true := by
  cases dispatch_handler ev with
  | movedFrom h => exact .inl (h K cfg d slot none true)
  | create h | deleteSelf h | overflow h | unmount h | moveSelf h | none h =>
    exact .inr fun _ _ => (h ..).trans (h ..).symm

/-- Without a next event the handler asks for one, or does not need it. -/
theorem processEvent_none (d : Dtree σ) (ev : Event) :
    processEvent K cfg d ev none true = .ok (d, .hanging) ∨
      ∀ next firstTry,
        processEvent K cfg d ev next firstTry = processEvent K cfg d ev none true := by
  unfold processEvent
  split_ifs
  · rcases findWatchChecked cfg d ev.wd with e | _ | slot
    · exact .inr fun _ _ => rfl
    · exact .inr fun _ _ => rfl
    · exact dispatch_none d ev (some slot)
  · exact dispatch_none d ev none

def RetOk (d : Dtree σ) (next : Option Event) (firstTry : Bool) (r : Dtree σ × Ret) : Prop :=
  (r.2 = .hanging → next = none ∧ firstTry = true ∧ r.1 = d) ∧ (r.2 = .pair → next ≠ none)

section RetOk

variable {d d' : Dtree σ} {next : Option Event} {firstTry : Bool}

theorem retOk_one : RetOk d next firstTry (d', .one) := ⟨by simp, by simp⟩

theorem ensures_discard : Ensures (RetOk d next firstTry) (fun _ => True) (discard K d') := by
  unfold discard
  cases reinitialize K d' with
  | error e => trivial
  | ok d1 => exact ⟨by simp, by simp⟩

theorem ensures_zapOrDiscard (p : Path) :
    Ensures (RetOk d next firstTry) (fun _ => True) (zapOrDiscard K d' p) := by
  unfold zapOrDiscard
  split_ifs
  · exact retOk_one
  · exact ensures_discard

/-- The handlers that consume one event. -/
theorem ensures_one {α : Type} {r : Except (Exit σ) α} {f : α → Except (Exit σ) (Dtree σ × Ret)}
    (hf : ∀ a, Ensures (RetOk d next firstTry) (fun _ => True) (f a)) :
    Ensures (RetOk d next firstTry) (fun _ => True) (r >>= f) := by
  cases r with
  | error e => trivial
  | ok a => exact hf a

theorem ensures_movedFrom (ev : Event) (slot : Option ℕ) : Ensures (RetOk d next firstTry)
    (fun _ => True) (onMovedFrom K cfg d ev slot next firstTry) := by
  unfold onMovedFrom
  split
  · split_ifs
    · refine ensures_one fun o => ?_
      split
      · exact ensures_discard
      · exact ensures_one fun _ => ensures_one fun _ => ⟨by simp, by simp⟩
    · exact ensures_one fun _ => ensures_zapOrDiscard _
  · split_ifs with hf
    · exact ⟨fun _ => ⟨rfl, hf, rfl⟩, by simp⟩
    · exact ensures_one fun _ => ensures_zapOrDiscard _

theorem ensures_dispatch (ev : Event) (slot : Option ℕ) : Ensures (RetOk d next firstTry)
    (fun _ => True) (dispatch K cfg d ev slot next firstTry) := by
  cases dispatch_handler ev with
  | create h =>
    rw [h]
    refine ensures_one ?_
    rintro ⟨j, path⟩
    dsimp only
    split_ifs
    · exact retOk_one
    · exact ensures_one fun _ => retOk_one
  | deleteSelf h =>
    rw [h]
    refine ensures_one ?_
    rintro ⟨j, path⟩
    dsimp only
    split_ifs
    · exact ensures_one fun _ => retOk_one
    · exact retOk_one
  | movedFrom h =>
    rw [h]
    exact ensures_movedFrom ev slot
  | overflow h =>
    rw [h]
    exact ensures_discard
  | unmount h =>
    rw [h]
    exact ensures_one fun _ => retOk_one
  | moveSelf h =>
    rw [h]
    refine ensures_one ?_
    rintro ⟨j, path⟩
    dsimp only
    split_ifs
    · exact ensures_one fun _ => ensures_zapOrDiscard _
    · exact retOk_one
  | none h =>
    rw [h]
    exact retOk_one

theorem ensures_processEvent (ev : Event) : Ensures (RetOk d next firstTry) (fun _ => True)
    (processEvent K cfg d ev next firstTry) := by
  unfold processEvent
  split_ifs
  · refine ensures_one fun o => ?_
    split
    · exact ensures_discard
    · exact ensures_dispatch ev _
  · exact ensures_dispatch ev none

end RetOk

/-! ## The loop in step with the whole list -/

namespace Chunks

def pending (l : Loop (Chunked σ)) : List Event := l.buf ++ l.d.kernel.chunks.flatten

def forget (d : Dtree (Chunked σ)) : Dtree σ := d.withKernel d.kernel.base

/-- Between two rounds: nothing in the buffer; or whole events, of which the first one has not been
tried without the next one; or one event whose successor did not come in time. -/
inductive LoopOk (l : Loop (Chunked σ)) : Prop
  | idle (hbuf : l.buf = []) (hnum : l.numRead ≤ 0)
  | full (hbuf : l.buf ≠ []) (hnum : l.numRead = bytes l.buf)
      (hlen : bytes l.buf ≤ INOTIFY_READ_BUF_LEN) (htry : l.firstTry = true ∨ 2 ≤ l.buf.length)
  | late (ev : Event) (hbuf : l.buf = [ev]) (hnum : l.numRead = ev.size - 1)
      (hlen : ev.size ≤ INOTIFY_READ_BUF_LEN) (hnone : l.d.kernel.chunks = [])
      (htry : l.firstTry = false)

structure ChunksOk (l : Loop (Chunked σ)) : Prop where
  loop : LoopOk l
  chunks : ∀ c ∈ l.d.kernel.chunks, c ≠ []
  fits : l.d.kernel.misfit = false

def measure (l : Loop (Chunked σ)) : ℕ :=
  2 * (pending l).length + 2 * l.d.kernel.chunks.length +
    if l.firstTry = true ∧ l.buf ≠ [] then 1 else 0

section WithChunks

variable (d : Dtree σ) (cs : List (List Event)) (buf : List Event) (numRead : ℤ) (firstTry : Bool)

theorem pending_withChunks :
    pending ⟨withChunks d cs, buf, numRead, firstTry⟩ = buf ++ cs.flatten := rfl

theorem measure_withChunks : measure ⟨withChunks d cs, buf, numRead, firstTry⟩ =
    2 * (buf ++ cs.flatten).length + 2 * cs.length +
      if firstTry = true ∧ buf ≠ [] then 1 else 0 := rfl

end WithChunks

/-- What a round has to do: it moves on towards the result of `handleAll`. -/
def Advances (K : Kernel σ) (cfg : Config) (l : Loop (Chunked σ)) :
    Except (Exit (Chunked σ)) (Loop (Chunked σ)) → Prop
  | .ok l' => ChunksOk l' ∧ measure l' < measure l ∧
      handleAll K cfg false (forget l'.d) (pending l') =
        handleAll K cfg false (forget l.d) (pending l)
  | .error e => e.final.kernel.misfit = true ∨
      handleAll K cfg false (forget l.d) (pending l) = .error ⟨e.why, forget e.final⟩

theorem withChunks_forget {d : Dtree (Chunked σ)} (h : d.kernel.misfit = false) :
    withChunks (forget d) d.kernel.chunks = d := by
  obtain ⟨c, r, i, ⟨b, cs, m⟩, t⟩ := d
  obtain rfl : m = false := h
  rfl

theorem forget_of_related {e' : Exit (Chunked σ)} {e : Exit σ}
    (h : ERel (fun k' k => k'.base = k) e' e) : ⟨e'.why, forget e'.final⟩ = e := by
  obtain ⟨hwhy, k', hfinal, hbase⟩ := h
  rw [hwhy, hfinal]
  change (⟨e.why, e.final.withKernel k'.base⟩ : Exit σ) = e
  rw [hbase]
  rfl

/-- The loop polls only with an empty buffer. -/
theorem LoopOk.buf_eq_nil {l : Loop (Chunked σ)} (h : LoopOk l) (hnum : ¬ 0 < l.numRead) :
    l.buf = [] := by
  cases h with
  | idle hbuf => exact hbuf
  | full hbuf heq => exact absurd (heq ▸ bytes_pos hbuf) hnum
  | late ev hbuf heq =>
    have hsize : 1 < ev.size := by
      unfold Event.size
      omega
    omega

/-- The first event of the buffer gets the successor it has in the whole list, or asks for it. -/
theorem round_cases {l : Loop (Chunked σ)} {ev : Event} {rest : List Event} (h : LoopOk l)
    (hbuf : l.buf = ev :: rest) (d : Dtree σ) :
    processEvent K cfg d ev (nextEvent ev rest l.numRead) l.firstTry =
        processEvent K cfg d ev (rest ++ l.d.kernel.chunks.flatten).head? false ∨
      rest = [] ∧ l.firstTry = true ∧ l.numRead = ev.size ∧ ev.size ≤ INOTIFY_READ_BUF_LEN ∧
        processEvent K cfg d ev (nextEvent ev rest l.numRead) l.firstTry = .ok (d, .hanging) := by
  cases h with
  | idle hb => simp [hb] at hbuf
  | late ev' hb hnum hlen hnone htry =>
    obtain ⟨rfl, rfl⟩ : ev' = ev ∧ [] = rest := by simpa [hb] using hbuf
    left
    simp [nextEvent, hnone, htry]
  | full hb hnum hlen htry =>
    rw [hbuf] at hnum hlen htry
    cases rest with
    | cons next rest =>
      left
      have hlt : ev.size < l.numRead := by
        rw [hnum, bytes_cons]
        have := bytes_pos (List.cons_ne_nil next rest)
        omega
      simp only [nextEvent, if_pos hlt, List.head?_cons, List.cons_append]
      exact processEvent_some d ev next l.firstTry
    | nil =>
      have hfirst : l.firstTry = true := by simpa using htry
      have hsize : l.numRead = ev.size := by simpa using hnum
      have hnext : nextEvent ev [] l.numRead = none := by simp [nextEvent]
      rw [hnext, hfirst]
      rcases @processEvent_none σ K cfg d ev with hhang | hsame
      · exact .inr ⟨rfl, rfl, hsize, by simpa using hlen, hhang⟩
      · exact .inl (hsame _ _).symm

/-- The loop after events have been consumed. -/
theorem chunksOk_consumed {d : Dtree σ} {cs : List (List Event)} (hcs : ∀ c ∈ cs, c ≠ [])
    {buf : List Event} {numRead : ℤ} (hlen : bytes buf ≤ INOTIFY_READ_BUF_LEN)
    (hnum : numRead = bytes buf ∨ buf = [] ∧ numRead ≤ 0) :
    ChunksOk ⟨withChunks d cs, buf, numRead, true⟩ := by
  refine ⟨?_, hcs, rfl⟩
  by_cases hbuf : buf = []
  · refine .idle hbuf ?_
    rcases hnum with hnum | hnum
    · rw [hbuf, bytes_nil] at hnum
      exact hnum.le
    · exact hnum.2
  · rcases hnum with hnum | hnum
    · exact .full hbuf hnum hlen (.inl rfl)
    · exact absurd hnum.1 hbuf

theorem measure_consumed (d : Dtree σ) {cs cs' : List (List Event)} {l : Loop (Chunked σ)}
    {buf : List Event} {numRead : ℤ} (hcs : l.d.kernel.chunks = cs) (hle : cs'.length ≤ cs.length)
    (hlt : (buf ++ cs'.flatten).length < (pending l).length) :
    measure ⟨withChunks d cs', buf, numRead, true⟩ < measure l := by
  have hflag : (if true = true ∧ buf ≠ [] then 1 else 0) ≤ 1 := by
    split_ifs <;> omega
  rw [measure_withChunks, measure, hcs]
  omega

theorem handleAll_cons (d : Dtree σ) (ev : Event) (rest : List Event) :
    handleAll K cfg false d (ev :: rest) =
      (processEvent K cfg d ev rest.head? false >>= fun r =>
        if r.2 = .discard then .ok r.1 else handleAll K cfg (r.2 = .pair) r.1 rest) := rfl

section Round

variable {d : Dtree σ} {cs : List (List Event)} {ev : Event} {rest : List Event} {numRead : ℤ}
  {firstTry : Bool}

theorem loopBody_eq : loopBody (chunked K) cfg ⟨withChunks d cs, ev :: rest, numRead, firstTry⟩ =
    (processEvent (chunked K) cfg (withChunks d cs) ev (nextEvent ev rest numRead) firstTry >>=
      fun r => if 0 < r.2.evLen ev rest then
        .ok ⟨r.1, dropBytes (r.2.evLen ev rest) (ev :: rest), numRead - r.2.evLen ev rest, true⟩
      else secondRead (chunked K) r.1 (ev :: rest) numRead) := rfl

theorem advances_secondRead (hcs : ∀ c ∈ cs, c ≠ []) (hnum : numRead = ev.size)
    (hlen : ev.size ≤ INOTIFY_READ_BUF_LEN) :
    Advances K cfg ⟨withChunks d cs, [ev], numRead, true⟩
      (secondRead (chunked K) (withChunks d cs) [ev] numRead) := by
  cases cs with
  | nil =>
    refine ⟨⟨.late ev rfl (by rw [hnum]) hlen rfl rfl, hcs, rfl⟩, ?_, rfl⟩
    change measure ⟨withChunks d [], [ev], _, false⟩ < _
    simp [measure_withChunks]
  | cons c cs =>
    have hc := hcs c List.mem_cons_self
    unfold secondRead
    rw [chunked_read_cons]
    by_cases hfit : bytes c ≤ INOTIFY_READ_BUF_LEN - numRead ∧ bytes c ≤ INOTIFY_READ_BUF_LEN
    · simp only [hfit, and_self, if_true, hc, if_false]
      refine ⟨⟨.full (by simp) (by simp [hnum]) ?_ (.inr ?_), ?_, rfl⟩, ?_, ?_⟩
      · rw [List.singleton_append, bytes_cons]
        omega
      · exact Nat.succ_le_succ (List.length_pos_iff.mpr hc)
      · exact fun c' hc' => hcs c' (List.mem_cons_of_mem _ hc')
      · change measure ⟨withChunks d cs, [ev] ++ c, _, false⟩ < _
        simp [measure_withChunks]
      · change handleAll K cfg false d (([ev] ++ c) ++ cs.flatten) = _
        rw [List.append_assoc]
        rfl
    · simp only [hfit, if_false]
      exact .inl rfl

theorem loopOk_bytes_le {l : Loop (Chunked σ)} (h : LoopOk l) (hbuf : l.buf ≠ []) :
    bytes l.buf ≤ INOTIFY_READ_BUF_LEN ∧ l.numRead ≤ INOTIFY_READ_BUF_LEN := by
  cases h with
  | idle hb => exact absurd hb hbuf
  | full _ hnum hlen => exact ⟨hlen, hnum ▸ hlen⟩
  | late ev hb hnum hlen =>
    rw [hb, hnum]
    exact ⟨by simpa using hlen, by omega⟩

/-- The bytes that are left when one event has been consumed. -/
theorem loopOk_tail {l : Loop (Chunked σ)} (h : LoopOk l) (hbuf : l.buf = ev :: rest) :
    l.numRead - ev.size = bytes rest ∨ rest = [] ∧ l.numRead - ev.size ≤ 0 := by
  cases h with
  | idle hb => simp [hb] at hbuf
  | full _ hnum =>
    rw [hnum, hbuf, bytes_cons]
    exact .inl (by omega)
  | late ev' hb hnum =>
    obtain ⟨rfl, rfl⟩ : ev' = ev ∧ [] = rest := by simpa [hb] using hbuf
    exact .inr ⟨rfl, by omega⟩

theorem chunked_processEvent (d : Dtree σ) (cs : List (List Event)) (ev : Event)
    (next : Option Event) (firstTry : Bool) :
    Related (RetRel (fun k' k => k' = ⟨k, cs, false⟩) (fun k' k => k' = ⟨k, [], false⟩))
      (ERel fun k' k => k'.base = k)
      (processEvent (chunked K) cfg (withChunks d cs) ev next firstTry)
      (processEvent K cfg d ev next firstTry) :=
  (chunked_eventSim cs).processEvent rfl ev next firstTry

theorem retRel_withChunks {d1' : Dtree (Chunked σ)} {d1 : Dtree σ} {ret' ret : Ret}
    (h : RetRel (fun k' k => k' = ⟨k, cs, false⟩) (fun k' k => k' = ⟨k, [], false⟩)
      (d1', ret') (d1, ret)) :
    ret' = ret ∧ d1' = withChunks d1 (if ret = .discard then [] else cs) := by
  obtain ⟨hret, k', hd1, hk'⟩ := h
  refine ⟨hret, hd1.trans ?_⟩
  change d1.withKernel k' = d1.withKernel _
  congr 1
  dsimp only at hk'
  split_ifs at hk' ⊢ <;> exact hk'

theorem ret_of_processEvent {next : Option Event} {d1 : Dtree σ} {ret : Ret}
    (h : processEvent K cfg d ev next firstTry = .ok (d1, ret)) :
    (ret = .hanging → firstTry = true) ∧ (ret = .pair → next ≠ none) := by
  have hr : Ensures (RetOk d next firstTry) (fun _ => True)
      (processEvent K cfg d ev next firstTry) :=
    ensures_processEvent ev
  rw [h] at hr
  exact ⟨fun hh => (hr.1 hh).2.1, hr.2⟩

theorem ne_hanging {next : Option Event} {d1 : Dtree σ} {ret : Ret}
    (h : processEvent K cfg d ev next false = .ok (d1, ret)) : ret ≠ .hanging :=
  fun hh => Bool.false_ne_true ((ret_of_processEvent h).1 hh)

theorem evLen_pos {ret : Ret} (h : ret ≠ .hanging) : 0 < ret.evLen ev rest := by
  cases ret with
  | one => exact ev.size_pos
  | pair => exact add_pos_of_pos_of_nonneg ev.size_pos (bytes_nonneg _)
  | discard =>
    change 0 < INOTIFY_READ_BUF_LEN
    decide
  | hanging => exact absurd rfl h

/-- The events that the handler consumes are the next ones of the whole list. -/
theorem advances_decided {ret : Ret} {d1 : Dtree σ}
    (h : ChunksOk (⟨withChunks d cs, ev :: rest, numRead, firstTry⟩ : Loop (Chunked σ)))
    (hres : processEvent K cfg d ev (rest ++ cs.flatten).head? false = .ok (d1, ret))
    (hpair : ret = .pair → rest ≠ []) :
    Advances K cfg ⟨withChunks d cs, ev :: rest, numRead, firstTry⟩
      (.ok ⟨withChunks d1 (if ret = .discard then [] else cs),
        dropBytes (ret.evLen ev rest) (ev :: rest), numRead - ret.evLen ev rest, true⟩) := by
  obtain ⟨hlen, hnumLe⟩ : bytes (ev :: rest) ≤ INOTIFY_READ_BUF_LEN ∧
      numRead ≤ INOTIFY_READ_BUF_LEN := loopOk_bytes_le h.loop (by simp)
  have htail : numRead - ev.size = bytes rest ∨ rest = [] ∧ numRead - ev.size ≤ 0 :=
    loopOk_tail h.loop rfl
  have hall : handleAll K cfg false d (ev :: rest ++ cs.flatten) =
      if ret = .discard then .ok d1 else handleAll K cfg (ret = .pair) d1 (rest ++ cs.flatten) := by
    rw [List.cons_append, handleAll_cons, hres]
    rfl
  have hrestLen : bytes rest ≤ INOTIFY_READ_BUF_LEN := by
    have := ev.size_pos
    rw [bytes_cons] at hlen
    omega
  cases ret with
  | hanging => exact absurd rfl (ne_hanging hres)
  | one =>
    have hdrop : dropBytes ev.size (ev :: rest) = rest := by
      simpa using dropBytes_append [ev] rest
    simp only [Ret.evLen, hdrop, reduceCtorEq, if_false]
    refine ⟨chunksOk_consumed h.chunks hrestLen htail, ?_, hall.symm⟩
    exact measure_consumed d1 rfl le_rfl (by simp [pending_withChunks])
  | pair =>
    obtain ⟨next, rest', rfl⟩ := List.exists_cons_of_ne_nil (hpair rfl)
    have hdrop : dropBytes (ev.size + bytes ([next])) (ev :: next :: rest') = rest' := by
      simpa using dropBytes_append [ev, next] rest'
    simp only [Ret.evLen, List.take_succ_cons, List.take_zero, hdrop, reduceCtorEq, if_false]
    have hnext := next.size_pos
    have hrest' := bytes_nonneg rest'
    rw [bytes_cons] at htail hrestLen
    refine ⟨chunksOk_consumed h.chunks (by omega) (.inl ?_), ?_, hall.symm⟩
    · rcases htail with htail | htail
      · simp only [bytes_cons, bytes_nil]
        omega
      · cases htail.1
    · exact measure_consumed d1 rfl le_rfl (by simp [pending_withChunks])
  | discard =>
    simp only [Ret.evLen, dropBytes_all hlen, if_true]
    refine ⟨chunksOk_consumed (by simp) (by decide) (.inr ⟨rfl, by omega⟩), ?_, hall.symm⟩
    exact measure_consumed d1 rfl (by simp) (by simp [pending_withChunks])

/-- A handler that ends the program ends it in `handleAll` as well. -/
theorem advances_error {e' : Exit (Chunked σ)} {e : Exit σ}
    (hres : processEvent K cfg d ev (rest ++ cs.flatten).head? false = .error e)
    (hrel : ERel (fun k' k => k'.base = k) e' e) :
    Advances K cfg ⟨withChunks d cs, ev :: rest, numRead, firstTry⟩ (.error e') := by
  right
  change handleAll K cfg false d (ev :: rest ++ cs.flatten) = _
  rw [List.cons_append, handleAll_cons, hres, error_bind, forget_of_related hrel]

theorem advances_loopBody
    (h : ChunksOk (⟨withChunks d cs, ev :: rest, numRead, firstTry⟩ : Loop (Chunked σ))) :
    Advances K cfg ⟨withChunks d cs, ev :: rest, numRead, firstTry⟩
      (loopBody (chunked K) cfg ⟨withChunks d cs, ev :: rest, numRead, firstTry⟩) := by
  have hsim := @chunked_processEvent σ K cfg d cs ev (nextEvent ev rest numRead) firstTry
  rw [loopBody_eq]
  rcases @round_cases σ K cfg _ ev rest h.loop rfl d with hsame | ⟨rfl, htry, hsize, hlen, hhang⟩
  · change _ = processEvent K cfg d ev (rest ++ cs.flatten).head? false at hsame
    rcases hsim.cases with ⟨⟨d1', ret'⟩, ⟨d1, ret⟩, hc, hb, hrel⟩ | ⟨e', e, hc, hb, hrel⟩
    · obtain ⟨rfl, hd⟩ := retRel_withChunks hrel
      have hres := hsame.symm.trans hb
      have hpair : ret' = .pair → rest ≠ [] := by
        rintro hp rfl
        exact (ret_of_processEvent hb).2 hp (by simp [nextEvent])
      rw [hc, ok_bind, if_pos (evLen_pos (ne_hanging hres)), hd]
      exact advances_decided h hres hpair
    · rw [hc, error_bind]
      exact advances_error (hsame.symm.trans hb) hrel
  · obtain rfl : firstTry = true := htry
    rcases hsim.cases with ⟨⟨d1', ret'⟩, r, hc, hb, hrel⟩ | ⟨_, _, _, hb, _⟩
    · obtain rfl : (d, Ret.hanging) = r := Except.ok.inj (hhang.symm.trans hb)
      obtain ⟨rfl, rfl⟩ := retRel_withChunks hrel
      have hneg : ¬ 0 < Ret.evLen ev [] .hanging := by
        change ¬ (0 : ℤ) < -1
        decide
      simp only [reduceCtorEq, if_false] at hc
      rw [hc, ok_bind]
      dsimp only
      rw [if_neg hneg]
      exact advances_secondRead h.chunks hsize hlen
    · rw [hhang] at hb
      cases hb

end Round

theorem advances_firstRead {d : Dtree σ} {cs : List (List Event)} {numRead : ℤ} {firstTry : Bool}
    (hcs : ∀ c ∈ cs, c ≠ []) (hne : cs ≠ []) :
    Advances K cfg ⟨withChunks d cs, [], numRead, firstTry⟩
      (firstRead (chunked K) cfg (withChunks d cs)) := by
  obtain ⟨c, cs, rfl⟩ := List.exists_cons_of_ne_nil hne
  have hc := hcs c List.mem_cons_self
  unfold firstRead
  rw [chunked_read_cons]
  by_cases hfit : bytes c ≤ cfg.cnt ∧ bytes c ≤ INOTIFY_READ_BUF_LEN
  · simp only [hfit, and_self, if_true, hc, if_false]
    refine ⟨⟨.full hc rfl hfit.2 (.inl rfl), ?_, rfl⟩, ?_, rfl⟩
    · exact fun c' hc' => hcs c' (List.mem_cons_of_mem _ hc')
    · change measure ⟨withChunks d cs, c, _, true⟩ < _
      simp [measure_withChunks, hc]
      omega
  · simp only [hfit, if_false]
    exact .inl rfl

theorem advances_step {l : Loop (Chunked σ)} (h : ChunksOk l)
    {r : Except (Exit (Chunked σ)) (Loop (Chunked σ))} (hs : step (chunked K) cfg l = some r) :
    Advances K cfg l r := by
  obtain ⟨d', buf, numRead, firstTry⟩ := l
  obtain ⟨d, cs, rfl⟩ : ∃ d cs, d' = withChunks d cs := ⟨_, _, (withChunks_forget h.fits).symm⟩
  unfold step at hs
  split_ifs at hs with hpos hready
  · obtain rfl := Option.some.inj hs
    cases buf with
    | nil =>
      cases h.loop with
      | idle _ hnum => exact absurd hpos (not_lt.mpr hnum)
      | full hbuf => exact absurd rfl hbuf
      | late ev hbuf => cases hbuf
    | cons ev rest => exact advances_loopBody h
  · obtain rfl := Option.some.inj hs
    obtain rfl : buf = [] := h.loop.buf_eq_nil hpos
    have hne : cs ≠ [] := by
      rintro rfl
      cases hready
    exact advances_firstRead h.chunks hne

theorem pending_of_waits {l : Loop (Chunked σ)} (h : ChunksOk l)
    (hs : step (chunked K) cfg l = none) : pending l = [] := by
  unfold step at hs
  split_ifs at hs with hpos hready
  have hnone : l.d.kernel.chunks = [] := by simpa [chunked] using hready
  simp [pending, h.loop.buf_eq_nil hpos, hnone]

/-! ## Runs -/

def fits : Except (Exit (Chunked σ)) (Loop (Chunked σ)) → Bool
  | .ok l => !l.d.kernel.misfit
  | .error e => !e.final.kernel.misfit

/-- The final state of the program, or its early end, without the chunks. -/
def outcome : Except (Exit (Chunked σ)) (Loop (Chunked σ)) → Except (Exit σ) (Dtree σ)
  | .ok l => .ok (forget l.d)
  | .error e => .error ⟨e.why, forget e.final⟩

theorem run_terminates {l : Loop (Chunked σ)} (h : ChunksOk l) :
    ∃ fuel r, run (chunked K) cfg fuel l = some r := by
  induction hn : measure l using Nat.strong_induction_on generalizing l with
  | _ n ih =>
    subst hn
    cases hs : step (chunked K) cfg l with
    | none => exact ⟨1, .ok l, by simp [run, hs]⟩
    | some r =>
      cases r with
      | error e => exact ⟨1, .error e, by simp [run, hs]⟩
      | ok l' =>
        obtain ⟨hok, hlt, -⟩ : Advances K cfg l (.ok l') := advances_step h hs
        obtain ⟨fuel, r, hrun⟩ := ih _ hlt hok rfl
        exact ⟨fuel + 1, r, by simpa [run, hs] using hrun⟩

theorem run_eq_handleAll {l : Loop (Chunked σ)} (h : ChunksOk l) {fuel : ℕ}
    {r : Except (Exit (Chunked σ)) (Loop (Chunked σ))} (hrun : run (chunked K) cfg fuel l = some r)
    (hfit : fits r = true) : outcome r = handleAll K cfg false (forget l.d) (pending l) := by
  induction fuel generalizing l with
  | zero => cases hrun
  | succ fuel ih =>
    rw [run] at hrun
    cases hs : step (chunked K) cfg l with
    | none =>
      rw [hs] at hrun
      obtain rfl := Option.some.inj hrun
      rw [pending_of_waits h hs]
      rfl
    | some r' =>
      have hadv := advances_step h hs
      rw [hs] at hrun
      cases r' with
      | error e =>
        obtain rfl := Option.some.inj hrun
        rcases hadv with hmis | hall
        · simp [fits, hmis] at hfit
        · exact hall.symm
      | ok l' =>
        obtain ⟨hok, -, hall⟩ := hadv
        exact (ih hok hrun).trans hall

def reading (d : Dtree σ) (cs : List (List Event)) : Loop (Chunked σ) := idle (withChunks d cs)

theorem chunksOk_reading (d : Dtree σ) {cs : List (List Event)} (hcs : ∀ c ∈ cs, c ≠ []) :
    ChunksOk (reading d cs) := ⟨.idle rfl le_rfl, hcs, rfl⟩

/-- Two ways to cut one list of events into chunks that fit have the same outcome: that of handling
the events of the list in order, up to the first rebuild of the cache. -/
theorem inotify_chunks_agree (K : Kernel σ) (cfg : Config) (d : Dtree σ)
    (cs cs' : List (List Event))
    (hcs : ∀ c ∈ cs, c ≠ []) (hcs' : ∀ c ∈ cs', c ≠ []) (hflat : cs.flatten = cs'.flatten) :
    (∃ fuel r, run (chunked K) cfg fuel (reading d cs) = some r) ∧
      ∀ fuel fuel' r r', run (chunked K) cfg fuel (reading d cs) = some r →
        run (chunked K) cfg fuel' (reading d cs') = some r' → fits r = true → fits r' = true →
        outcome r = handleAll K cfg false d cs.flatten ∧ outcome r = outcome r' := by
  have hok := chunksOk_reading d hcs
  refine ⟨run_terminates hok, fun fuel fuel' r r' hrun hrun' hfit hfit' => ?_⟩
  have h := run_eq_handleAll hok hrun hfit
  have h' := run_eq_handleAll (chunksOk_reading d hcs') hrun' hfit'
  have hpend : pending (reading d cs) = pending (reading d cs') := hflat
  exact ⟨h, by rw [h, h', hpend]; rfl⟩

/-- The directory `r`, with its subdirectory `r/a`. -/
def watched : Dtree ℕ where
  wlCache := [⟨0, "r".toList⟩, ⟨1, "r/a".toList⟩, emptySlot]
  rootDirPaths := [some "r".toList]
  ignoreRootDirs := 0
  kernel := 2
  trace := []

def movedFromA : Event := ⟨0, { isdir := true, movedFrom := true }, 7, 16, "a".toList⟩
def movedToB : Event := ⟨0, { isdir := true, movedTo := true }, 7, 16, "b".toList⟩

theorem inotify_chunks_agree_run : ∃ r r',
    run (chunked counting) plain 9 (reading watched [[movedFromA], [movedToB]]) = some r ∧
    run (chunked counting) plain 9 (reading watched [[movedFromA, movedToB]]) = some r' ∧
    fits r = true ∧ fits r' = true ∧ outcome r = outcome r' := by
  obtain ⟨r, hr, hfit⟩ := Option.map_eq_some_iff.mp (show
    (run (chunked counting) plain 9 (reading watched [[movedFromA], [movedToB]])).map fits =
      some true
      by decide +kernel)
  obtain ⟨r', hr', hfit'⟩ := Option.map_eq_some_iff.mp (show
    (run (chunked counting) plain 9 (reading watched [[movedFromA, movedToB]])).map fits = some true
      by decide +kernel)
  have h := inotify_chunks_agree counting plain watched [[movedFromA], [movedToB]]
    [[movedFromA, movedToB]] (by simp) (by simp) rfl
  exact ⟨r, r', hr, hr', hfit, hfit', (h.2 9 9 r r' hr hr' hfit hfit').2⟩

end Chunks

end Tlpi.Inotify
