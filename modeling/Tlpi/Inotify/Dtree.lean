import Mathlib.Tactic
import Tlpi.Inotify.Cache
import Tlpi.Lib.Outcome

/-! The program of `inotify/inotify_dtree.c` over an arbitrary kernel: root directories, traversal
of subtrees, the handling of one event in `processNextInotifyEvent()`, the loop of
`processInotifyEvents()` and the commands that change the cache. Functions of the source that may
end the process return in `Except`, with the state in which the process ended as the error. -/

namespace Tlpi.Inotify
open Lib

/-! ## Events and the kernel -/

structure Mask where
  isdir : Bool := false
  create : Bool := false
  deleteSelf : Bool := false
  moveSelf : Bool := false
  movedFrom : Bool := false
  movedTo : Bool := false
  ignored : Bool := false
  qOverflow : Bool := false
  unmount : Bool := false
  deriving DecidableEq

/-- `len` is the size of the name field, which is padded with null bytes. -/
structure Event where
  wd : ℤ
  mask : Mask
  cookie : ℕ
  len : ℕ
  name : Name
  deriving DecidableEq

-- `sizeof(struct inotify_event) + ev->len`
def Event.size (ev : Event) : ℤ := 16 + ev.len

def bytes (evs : List Event) : ℤ := (evs.map Event.size).sum

theorem Event.size_pos (ev : Event) : 0 < ev.size := by
  unfold Event.size
  omega

@[simp] theorem bytes_nil : bytes [] = 0 := rfl

@[simp] theorem bytes_cons (ev : Event) (evs : List Event) :
    bytes (ev :: evs) = ev.size + bytes evs := by
  simp [bytes]

theorem bytes_nonneg (evs : List Event) : 0 ≤ bytes evs := by
  induction evs with
  | nil => exact le_rfl
  | cons ev evs ih =>
    rw [bytes_cons]
    exact add_nonneg ev.size_pos.le ih

theorem bytes_pos {evs : List Event} (h : evs ≠ []) : 0 < bytes evs := by
  cases evs with
  | nil => exact absurd rfl h
  | cons ev evs =>
    rw [bytes_cons]
    exact add_pos_of_pos_of_nonneg ev.size_pos (bytes_nonneg evs)

def INOTIFY_READ_BUF_LEN : ℤ := 100 * (16 + NAME_MAX + 1)

inductive AddResult
  | wd (n : ℕ)
  | enoent
  | error
  deriving DecidableEq

inductive ReadResult
  | events (evs : List Event)
  | eintr
  | error
  deriving DecidableEq

/-- The system calls and `nftw()`. A new watch gets `IN_MOVE_SELF` if the flag of `addWatch` says
so; `nftw` gives the pathnames in the order of the traversal, and whether each is a directory;
`reopen` is `close()` of the inotify descriptor and `inotify_init()`; `ready` is what `select()`
waits for. -/
structure Kernel (σ : Type) where
  addWatch : σ → Path → Bool → σ × AddResult
  rmWatch : σ → ℤ → σ × Bool
  nftw : σ → Path → σ × List (Path × Bool)
  reopen : σ → σ
  ready : σ → Bool
  read : σ → ℤ → σ × ReadResult

/-! ## State -/

inductive CacheOp
  | add (slot wd : ℕ) (path : Path)
  | empty (slot : ℕ)
  | rewrite (old new : Path)
  | free
  deriving DecidableEq

/-- The globals of the program; `trace` records the changes that are made to the cache. -/
structure Dtree (σ : Type) where
  wlCache : List Watch
  rootDirPaths : List (Option Path)
  ignoreRootDirs : ℕ
  kernel : σ
  trace : List CacheOp

inductive Halt
  | exitSuccess
  | exitFailure
  | aborted
  | fault
  deriving DecidableEq

structure Exit (σ : Type) where
  why : Halt
  final : Dtree σ

structure Config where
  abortOnCacheProblem : Bool
  readBufferSize : ℤ

variable {σ : Type}

namespace Dtree

def clearSlot (d : Dtree σ) (slot : ℕ) : Dtree σ :=
  { d with wlCache := markCacheSlotEmpty d.wlCache slot, trace := d.trace ++ [.empty slot] }

def addSlot (d : Dtree σ) (wd : ℕ) (path : Path) : Dtree σ :=
  { d with
    wlCache := (addWatchToCache d.wlCache wd path).1
    trace := d.trace ++ [.add (addWatchToCache d.wlCache wd path).2 wd path] }

def rewritePaths (d : Dtree σ) (oldPre : Path) (oldName : Name) (newPre : Path) (newName : Name) :
    Dtree σ :=
  { d with
    wlCache := rewriteCachedPaths d.wlCache oldPre oldName newPre newName
    trace := d.trace ++ [.rewrite (entryPath oldPre oldName) (entryPath newPre newName)] }

def dropRoot (d : Dtree σ) (p : ℕ) : Dtree σ :=
  { d with rootDirPaths := d.rootDirPaths.set p none, ignoreRootDirs := d.ignoreRootDirs + 1 }

def freeCache (d : Dtree σ) : Dtree σ := { d with wlCache := [], trace := d.trace ++ [.free] }

end Dtree

def started (roots : List Path) (k : σ) : Dtree σ where
  wlCache := []
  rootDirPaths := roots.map some
  ignoreRootDirs := 0
  kernel := k
  trace := []

def findWatchChecked (cfg : Config) (d : Dtree σ) (wd : ℤ) : Except (Exit σ) (Option ℕ) :=
  match findWatch d.wlCache wd with
  | some slot => .ok (some slot)
  | none => if cfg.abortOnCacheProblem then .error ⟨.aborted, d⟩ else .ok none

/-! ## Root directories -/

def findRootDirPath (roots : List (Option Path)) (path : Path) : Option ℕ :=
  roots.findIdx? fun r => r = some path

def isRootDirPath (roots : List (Option Path)) (path : Path) : Bool :=
  (findRootDirPath roots path).isSome

def zapRootDirPath (d : Dtree σ) (path : Path) : Except (Exit σ) (Dtree σ) :=
  match findRootDirPath d.rootDirPaths path with
  | none => .error ⟨.exitFailure, d⟩
  | some p =>
    if d.ignoreRootDirs + 1 = d.rootDirPaths.length then .error ⟨.exitSuccess, d.dropRoot p⟩
    else .ok (d.dropRoot p)

/-! ## Subtrees -/

def traverseTree (K : Kernel σ) (d : Dtree σ) (entry : Path × Bool) : Except (Exit σ) (Dtree σ) :=
  if entry.2 = false then .ok d
  else
    match K.addWatch d.kernel entry.1 (isRootDirPath d.rootDirPaths entry.1) with
    | (k, .enoent) => .ok { d with kernel := k }
    | (k, .error) => .error ⟨.exitFailure, { d with kernel := k }⟩
    | (k, .wd wd) =>
      let d := { d with kernel := k }
      if (findWatch d.wlCache wd).isSome then .ok d else .ok (d.addSlot wd entry.1)

def watchSubtree (K : Kernel σ) (d : Dtree σ) (path : Path) : Except (Exit σ) (Dtree σ) :=
  (K.nftw d.kernel path).2.foldlM (traverseTree K) { d with kernel := (K.nftw d.kernel path).1 }

/-- The slots that `zapSubtree()` looks for. -/
def Matches (pn : Path) (s : Watch) : Prop := 0 ≤ s.wd ∧ atOrBelow pn s.path = true

instance {pn : Path} {s : Watch} : Decidable (Matches pn s) := inferInstanceAs (Decidable (_ ∧ _))

structure Zapped (σ : Type) where
  cache : List Watch
  kernel : σ
  slots : List ℕ
  ok : Bool

/-- The loop of `zapSubtree()` from slot `j` on; it stops at a watch that cannot be removed. -/
def zapSlots (K : Kernel σ) (pn : Path) : ℕ → List Watch → σ → Zapped σ
  | _, [], k => ⟨[], k, [], true⟩
  | j, w :: c, k =>
    if 0 ≤ w.wd ∧ atOrBelow pn w.path then
      if (K.rmWatch k w.wd).2 then
        let z := zapSlots K pn (j + 1) c (K.rmWatch k w.wd).1
        { z with cache := emptySlot :: z.cache, slots := j :: z.slots }
      else ⟨w :: c, (K.rmWatch k w.wd).1, [], false⟩
    else
      let z := zapSlots K pn (j + 1) c k
      { z with cache := w :: z.cache }

/-- The flag is false when the source returns -1. -/
def zapSubtree (K : Kernel σ) (d : Dtree σ) (path : Path) : Dtree σ × Bool :=
  let z := zapSlots K path 0 d.wlCache d.kernel
  ({ d with
      wlCache := z.cache
      kernel := z.kernel
      trace := d.trace ++ z.slots.map CacheOp.empty }, z.ok)

def reinitialize (K : Kernel σ) (d : Dtree σ) : Except (Exit σ) (Dtree σ) :=
  d.rootDirPaths.reduceOption.foldlM (watchSubtree K)
    { d.freeCache with kernel := K.reopen d.kernel }

/-! ## One event -/

/-- How `processNextInotifyEvent()` returns: with the size of one event or of a pair, with
`INOTIFY_READ_BUF_LEN` after a rebuild of the cache, or with -1. -/
inductive Ret
  | one
  | pair
  | discard
  | hanging
  deriving DecidableEq

def discard (K : Kernel σ) (d : Dtree σ) : Except (Exit σ) (Dtree σ × Ret) := do
  let d ← reinitialize K d
  return (d, .discard)

/-- `wlCache[evCacheSlot]`. The use of a slot that has not been looked up, is not in the cache, or
does not hold the descriptor of the event is a fault. -/
def useSlot (d : Dtree σ) (ev : Event) : Option ℕ → Except (Exit σ) (ℕ × Path)
  | none => .error ⟨.fault, d⟩
  | some slot =>
    match d.wlCache[slot]? with
    | none => .error ⟨.fault, d⟩
    | some w => if w.wd = ev.wd then .ok (slot, w.path) else .error ⟨.fault, d⟩

-- the buffer of `processNextInotifyEvent()` has room for a name after a pathname
def eventPath (dir : Path) (name : Name) : Path :=
  snprintf (PATH_MAX + NAME_MAX) (dir ++ '/' :: name)

def onCreate (K : Kernel σ) (d : Dtree σ) (ev : Event) (slot : Option ℕ) :
    Except (Exit σ) (Dtree σ × Ret) := do
  let (_, dir) ← useSlot d ev slot
  if pathnameInCache d.wlCache (eventPath dir ev.name) then return (d, .one)
  let d ← watchSubtree K d (eventPath dir ev.name)
  return (d, .one)

def onDeleteSelf (d : Dtree σ) (ev : Event) (slot : Option ℕ) :
    Except (Exit σ) (Dtree σ × Ret) := do
  let (j, path) ← useSlot d ev slot
  let d ← if isRootDirPath d.rootDirPaths path then zapRootDirPath d path else pure d
  return (d.clearSlot j, .one)

def zapOrDiscard (K : Kernel σ) (d : Dtree σ) (path : Path) : Except (Exit σ) (Dtree σ × Ret) :=
  if (zapSubtree K d path).2 then .ok ((zapSubtree K d path).1, .one)
  else discard K (zapSubtree K d path).1

def movedOut (K : Kernel σ) (d : Dtree σ) (ev : Event) (slot : Option ℕ) :
    Except (Exit σ) (Dtree σ × Ret) := do
  let (_, dir) ← useSlot d ev slot
  zapOrDiscard K d (eventPath dir ev.name)

def renamed (K : Kernel σ) (cfg : Config) (d : Dtree σ) (ev : Event) (slot : Option ℕ)
    (nextEv : Event) : Except (Exit σ) (Dtree σ × Ret) := do
  match ← findWatchChecked cfg d nextEv.wd with
  | none => discard K d
  | some nextSlot =>
    let (_, oldDir) ← useSlot d ev slot
    let (_, newDir) ← useSlot d nextEv (some nextSlot)
    return (d.rewritePaths oldDir ev.name newDir nextEv.name, .pair)

def onMovedFrom (K : Kernel σ) (cfg : Config) (d : Dtree σ) (ev : Event) (slot : Option ℕ)
    (next : Option Event) (firstTry : Bool) : Except (Exit σ) (Dtree σ × Ret) :=
  match next with
  | some nextEv =>
    if nextEv.mask.movedTo ∧ nextEv.cookie = ev.cookie then renamed K cfg d ev slot nextEv
    else movedOut K d ev slot
  | none => if firstTry then .ok (d, .hanging) else movedOut K d ev slot

def onUnmount (d : Dtree σ) (ev : Event) (slot : Option ℕ) : Except (Exit σ) (Dtree σ × Ret) := do
  let (j, _) ← useSlot d ev slot
  return (d.clearSlot j, .one)

def onMoveSelf (K : Kernel σ) (d : Dtree σ) (ev : Event) (slot : Option ℕ) :
    Except (Exit σ) (Dtree σ × Ret) := do
  let (_, path) ← useSlot d ev slot
  if isRootDirPath d.rootDirPaths path then
    let d ← zapRootDirPath d path
    zapOrDiscard K d path
  else return (d, .one)

def dispatch (K : Kernel σ) (cfg : Config) (d : Dtree σ) (ev : Event) (slot : Option ℕ)
    (next : Option Event) (firstTry : Bool) : Except (Exit σ) (Dtree σ × Ret) :=
  if ev.mask.isdir ∧ (ev.mask.create ∨ ev.mask.movedTo) then onCreate K d ev slot
  else if ev.mask.deleteSelf then onDeleteSelf d ev slot
  else if ev.mask.movedFrom ∧ ev.mask.isdir then onMovedFrom K cfg d ev slot next firstTry
  else if ev.mask.qOverflow then discard K d
  else if ev.mask.unmount then onUnmount d ev slot
  else if ev.mask.moveSelf then onMoveSelf K d ev slot
  else .ok (d, .one)

/-- The handler that an event gets, which its mask decides. -/
inductive Handler (ev : Event) : Prop
  | create (h : ∀ {σ} (K : Kernel σ) cfg d slot next firstTry,
      dispatch K cfg d ev slot next firstTry = onCreate K d ev slot)
  | deleteSelf (h : ∀ {σ} (K : Kernel σ) cfg d slot next firstTry,
      dispatch K cfg d ev slot next firstTry = onDeleteSelf d ev slot)
  | movedFrom (h : ∀ {σ} (K : Kernel σ) cfg d slot next firstTry,
      dispatch K cfg d ev slot next firstTry = onMovedFrom K cfg d ev slot next firstTry)
  | overflow (h : ∀ {σ} (K : Kernel σ) cfg d slot next firstTry,
      dispatch K cfg d ev slot next firstTry = discard K d)
  | unmount (h : ∀ {σ} (K : Kernel σ) cfg d slot next firstTry,
      dispatch K cfg d ev slot next firstTry = onUnmount d ev slot)
  | moveSelf (h : ∀ {σ} (K : Kernel σ) cfg d slot next firstTry,
      dispatch K cfg d ev slot next firstTry = onMoveSelf K d ev slot)
  | none (h : ∀ {σ} (K : Kernel σ) cfg d slot next firstTry,
      dispatch K cfg d ev slot next firstTry = .ok (d, .one))

theorem dispatch_handler (ev : Event) : Handler ev := by
  by_cases h1 : ev.mask.isdir ∧ (ev.mask.create ∨ ev.mask.movedTo)
  · exact .create fun _ _ _ _ _ _ => if_pos h1
  by_cases h2 : ev.mask.deleteSelf
  · exact .deleteSelf fun _ _ _ _ _ _ => by rw [dispatch, if_neg h1, if_pos h2]
  by_cases h3 : ev.mask.movedFrom ∧ ev.mask.isdir
  · exact .movedFrom fun _ _ _ _ _ _ => by rw [dispatch, if_neg h1, if_neg h2, if_pos h3]
  by_cases h4 : ev.mask.qOverflow
  · exact .overflow fun _ _ _ _ _ _ => by
      rw [dispatch, if_neg h1, if_neg h2, if_neg h3, if_pos h4]
  by_cases h5 : ev.mask.unmount
  · exact .unmount fun _ _ _ _ _ _ => by
      rw [dispatch, if_neg h1, if_neg h2, if_neg h3, if_neg h4, if_pos h5]
  by_cases h6 : ev.mask.moveSelf
  · exact .moveSelf fun _ _ _ _ _ _ => by
      rw [dispatch, if_neg h1, if_neg h2, if_neg h3, if_neg h4, if_neg h5, if_pos h6]
  · exact .none fun _ _ _ _ _ _ => by
      rw [dispatch, if_neg h1, if_neg h2, if_neg h3, if_neg h4, if_neg h5, if_neg h6]

def processEvent (K : Kernel σ) (cfg : Config) (d : Dtree σ) (ev : Event) (next : Option Event)
    (firstTry : Bool) : Except (Exit σ) (Dtree σ × Ret) := do
  if ev.wd ≠ -1 ∧ ev.mask.ignored = false then
    match ← findWatchChecked cfg d ev.wd with
    | none => discard K d
    | some slot => dispatch K cfg d ev (some slot) next firstTry
  else dispatch K cfg d ev none next firstTry

-- `nextEv` is read only if it starts before the end of the buffer
def nextEvent (ev : Event) (rest : List Event) (bufSize : ℤ) : Option Event :=
  if ev.size < bufSize then rest.head? else none

/-- The buffer is `ev :: rest`. -/
def processNextInotifyEvent (K : Kernel σ) (cfg : Config) (d : Dtree σ) (ev : Event)
    (rest : List Event) (bufSize : ℤ) (firstTry : Bool) : Except (Exit σ) (Dtree σ × Ret) :=
  processEvent K cfg d ev (nextEvent ev rest bufSize) firstTry

/-! ## The loop over the events -/

/-- The locals of `processInotifyEvents()`: `buf` starts at `evp`, and `numRead` is the number of
bytes from there to the end of what has been read. -/
structure Loop (σ : Type) where
  d : Dtree σ
  buf : List Event
  numRead : ℤ
  firstTry : Bool

def Ret.evLen (ev : Event) (rest : List Event) : Ret → ℤ
  | .one => ev.size
  | .pair => ev.size + bytes (rest.take 1)
  | .discard => INOTIFY_READ_BUF_LEN
  | .hanging => -1

-- `evp += n`
def dropBytes : ℤ → List Event → List Event
  | _, [] => []
  | n, ev :: rest => if n ≤ 0 then ev :: rest else dropBytes (n - ev.size) rest

theorem dropBytes_of_nonpos {n : ℤ} (h : n ≤ 0) (evs : List Event) : dropBytes n evs = evs := by
  cases evs with
  | nil => rfl
  | cons ev evs => exact if_pos h

theorem dropBytes_append (evs evs' : List Event) : dropBytes (bytes evs) (evs ++ evs') = evs' := by
  induction evs with
  | nil => exact dropBytes_of_nonpos le_rfl evs'
  | cons ev evs ih =>
    have hpos : ¬ bytes (ev :: evs) ≤ 0 := not_le.mpr (bytes_pos (by simp))
    rw [List.cons_append, dropBytes, if_neg hpos, bytes_cons, add_sub_cancel_left, ih]

theorem dropBytes_all {n : ℤ} {evs : List Event} (h : bytes evs ≤ n) : dropBytes n evs = [] := by
  induction evs generalizing n with
  | nil => rfl
  | cons ev evs ih =>
    have hsize := ev.size_pos
    have hrest := bytes_nonneg evs
    rw [bytes_cons] at h
    rw [dropBytes, if_neg (by omega)]
    exact ih (by omega)

/-- The second `read()`. After a timeout `nr` is -1 and is added to `numRead` all the same, since
the test that should prevent it is `errno != -1`. -/
def secondRead (K : Kernel σ) (d : Dtree σ) (buf : List Event) (numRead : ℤ) :
    Except (Exit σ) (Loop σ) :=
  match K.read d.kernel (INOTIFY_READ_BUF_LEN - numRead) with
  | (k, .events evs) =>
    if evs = [] then .error ⟨.exitFailure, { d with kernel := k }⟩
    else .ok ⟨{ d with kernel := k }, buf ++ evs, numRead + bytes evs, false⟩
  | (k, .eintr) => .ok ⟨{ d with kernel := k }, buf, numRead - 1, false⟩
  | (k, .error) => .error ⟨.exitFailure, { d with kernel := k }⟩

def loopBody (K : Kernel σ) (cfg : Config) (l : Loop σ) : Except (Exit σ) (Loop σ) :=
  match l.buf with
  | [] => .error ⟨.fault, l.d⟩
  | ev :: rest => do
    let (d, ret) ← processNextInotifyEvent K cfg l.d ev rest l.numRead l.firstTry
    let evLen := ret.evLen ev rest
    if 0 < evLen then return ⟨d, dropBytes evLen l.buf, l.numRead - evLen, true⟩
    else secondRead K d l.buf l.numRead

def Config.cnt (cfg : Config) : ℤ :=
  if 0 < cfg.readBufferSize then cfg.readBufferSize else INOTIFY_READ_BUF_LEN

def firstRead (K : Kernel σ) (cfg : Config) (d : Dtree σ) : Except (Exit σ) (Loop σ) :=
  match K.read d.kernel cfg.cnt with
  | (k, .events evs) =>
    if evs = [] then .error ⟨.exitFailure, { d with kernel := k }⟩
    else .ok ⟨{ d with kernel := k }, evs, bytes evs, true⟩
  | (k, _) => .error ⟨.exitFailure, { d with kernel := k }⟩

/-- One round of the loop of `processInotifyEvents()`, or its first `read()` when `select()` in
`main()` finds events; `none` when the program waits for events. -/
def step (K : Kernel σ) (cfg : Config) (l : Loop σ) : Option (Except (Exit σ) (Loop σ)) :=
  if 0 < l.numRead then some (loopBody K cfg l)
  else if K.ready l.d.kernel then some (firstRead K cfg l.d)
  else none

/-- Until the program waits for events; `none` when `fuel` rounds are not enough. -/
def run (K : Kernel σ) (cfg : Config) : ℕ → Loop σ → Option (Except (Exit σ) (Loop σ))
  | 0, _ => none
  | fuel + 1, l =>
    match step K cfg l with
    | none => some (.ok l)
    | some (.error e) => some (.error e)
    | some (.ok l') => run K cfg fuel l'

def idle (d : Dtree σ) : Loop σ := ⟨d, [], 0, true⟩

/-! ## Commands -/

/-- The commands `a`, `z` and `0`. -/
inductive Cmd
  | add (arg : Path)
  | zap (arg : Path)
  | rebuild

def executeCommand (K : Kernel σ) (d : Dtree σ) : Cmd → Except (Exit σ) (Dtree σ)
  | .add arg => watchSubtree K (zapSubtree K d arg).1 arg
  | .zap arg => .ok (zapSubtree K d arg).1
  | .rebuild => reinitialize K d

/-- A kernel that finds the directory it is asked for and numbers its watches. -/
def counting : Kernel ℕ where
  addWatch k _ _ := (k + 1, .wd k)
  rmWatch k _ := (k, true)
  nftw k p := (k, [(p, true)])
  reopen k := k
  ready _ := false
  read k _ := (k, .eintr)

def plain : Config where
  abortOnCacheProblem := false
  readBufferSize := 0

end Tlpi.Inotify
