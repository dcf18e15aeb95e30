import Mathlib.Tactic
import Tlpi.Inotify.Dtree
import Tlpi.Lib.DirTree

/-! The kernel that `inotify/inotify_dtree.c` runs on: a tree of directories below one root, watches
on i-nodes, and a queue of events. Operations on the tree queue events for the watches; the order in
which a directory is read and the choice of unused watch descriptors are left open. -/

namespace Tlpi.Inotify
open Lib

/-! ## Watches -/

/-- The live watches of an inotify instance, and all the descriptors it has given out. -/
structure Watches where
  owner : ℕ → Option ℕ
  used : List ℕ
  owner_used : ∀ wd i, owner wd = some i → wd ∈ used
  injective : ∀ v w i, owner v = some i → owner w = some i → v = w

namespace Watches

def empty : Watches := ⟨fun _ => none, [], by simp, by simp⟩

def find (W : Watches) (i : ℕ) : Option ℕ := W.used.find? fun wd => W.owner wd = some i

theorem find_eq_some {W : Watches} {i wd : ℕ} : W.find i = some wd ↔ W.owner wd = some i := by
  constructor
  · intro h
    simpa using List.find?_some h
  · intro h
    cases hf : W.find i with
    | none => exact absurd (List.find?_eq_none.mp hf wd (W.owner_used wd i h)) (by simp [h])
    | some v => rw [W.injective v wd i (by simpa using List.find?_some hf) h]

theorem find_eq_none {W : Watches} {i : ℕ} : W.find i = none ↔ ∀ wd, W.owner wd ≠ some i := by
  rw [Option.eq_none_iff_forall_ne_some]
  exact forall_congr' fun wd => not_congr find_eq_some

def add (W : Watches) (wd i : ℕ) (hi : W.find i = none) : Watches where
  owner := Function.update W.owner wd (some i)
  used := wd :: W.used
  owner_used v j h := by
    by_cases hv : v = wd
    · simp [hv]
    · rw [Function.update_of_ne hv] at h
      exact List.mem_cons_of_mem _ (W.owner_used v j h)
  injective v w j hv hw := by
    have hne := find_eq_none.mp hi
    by_cases hvw : v = wd <;> by_cases hww : w = wd
    · rw [hvw, hww]
    · rw [hvw, Function.update_self] at hv
      rw [Function.update_of_ne hww, ← hv] at hw
      exact absurd hw (hne w)
    · rw [hww, Function.update_self] at hw
      rw [Function.update_of_ne hvw, ← hw] at hv
      exact absurd hv (hne v)
    · rw [Function.update_of_ne hvw] at hv
      rw [Function.update_of_ne hww] at hw
      exact W.injective v w j hv hw

def remove (W : Watches) (wd : ℕ) : Watches where
  owner := Function.update W.owner wd none
  used := W.used
  owner_used v j h := by
    by_cases hv : v = wd
    · simp [hv] at h
    · rw [Function.update_of_ne hv] at h
      exact W.owner_used v j h
  injective v w j hv hw := by
    by_cases hvw : v = wd
    · simp [hvw] at hv
    · by_cases hww : w = wd
      · simp [hww] at hw
      · rw [Function.update_of_ne hvw] at hv
        rw [Function.update_of_ne hww] at hw
        exact W.injective v w j hv hw

theorem owner_remove {W : Watches} {v wd i : ℕ} :
    (W.remove wd).owner v = some i ↔ v ≠ wd ∧ W.owner v = some i := by
  by_cases hv : v = wd <;> simp [remove, hv]

end Watches

/-! ## Events -/

/-- What the kernel reports at a time. A directory that appears has been created or, with a cookie,
moved from an unwatched place. -/
inductive Notice
  | appeared (wd : ℕ) (name : Name) (cookie : Option ℕ)
  | movedOut (wd : ℕ) (name : Name) (cookie : ℕ)
  | renamed (wd : ℕ) (name : Name) (wd' : ℕ) (name' : Name) (cookie : ℕ)
  | deleteSelf (wd : ℕ)
  | ignored (wd : ℕ)
  deriving DecidableEq

-- the name is padded with null bytes, at least one, to a multiple of the size of an event
def nameLen (name : Name) : ℕ := 16 * (name.length / 16 + 1)

def named (wd : ℕ) (mask : Mask) (cookie : ℕ) (name : Name) : Event :=
  ⟨wd, { mask with isdir := true }, cookie, nameLen name, name⟩

def selfEvent (wd : ℕ) (mask : Mask) : Event := ⟨wd, mask, 0, 0, []⟩

def Notice.events : Notice → List Event
  | .appeared wd name none => [named wd { create := true } 0 name]
  | .appeared wd name (some cookie) => [named wd { movedTo := true } cookie name]
  | .movedOut wd name cookie => [named wd { movedFrom := true } cookie name]
  | .renamed wd name wd' name' cookie =>
    [named wd { movedFrom := true } cookie name, named wd' { movedTo := true } cookie name']
  | .deleteSelf wd => [selfEvent wd { deleteSelf := true }]
  | .ignored wd => [selfEvent wd { ignored := true }]

def fitting : ℤ → List Event → List Event
  | _, [] => []
  | space, ev :: evs => if ev.size ≤ space then ev :: fitting (space - ev.size) evs else []

/-! ## Operations on the tree -/

def dirPath (root : Path) (x : Dir Name) : Path := pathOf root x.comps

/-- The pathnames below `root` can be used: valid names and no truncation. -/
def Nameable (root : Path) (t : DirTree Name) : Prop :=
  ∀ x ∈ t.dirs, (∀ n ∈ x.comps, ValidName n) ∧ (dirPath root x).length < PATH_MAX

instance {root : Path} {t : DirTree Name} : Decidable (Nameable root t) :=
  inferInstanceAs (Decidable (∀ x ∈ t.dirs, _))

structure World (root : Path) where
  tree : DirTree Name
  watches : Watches
  queue : List Event
  cookie : ℕ
  nameable : Nameable root tree
  noSlash : root.getLast? ≠ some '/'

inductive Op
  | mkdir (dir : List Name) (name : Name) (ino : ℕ)
  | rmdir (dir : List Name) (name : Name)
  | rename (dir : List Name) (name : Name) (dir' : List Name) (name' : Name)
  | moveOut (dir : List Name) (name : Name)
  | moveIn (sub : DirTree Name) (dir : List Name) (name : Name)

namespace Op

def tree (t : DirTree Name) : Op → Option (DirTree Name)
  | .mkdir dir name ino => t.mkdir dir name ino
  | .rmdir dir name => t.rmdir dir name
  | .rename dir name dir' name' => t.rename dir name dir' name'
  | .moveOut dir name => t.moveOut dir name
  | .moveIn sub dir name => t.moveIn sub dir name

/-- The directory that is removed or replaced, if it exists. -/
def removes : Op → Option (List Name)
  | .rmdir dir name => some (dir ++ [name])
  | .rename _ _ dir' name' => some (dir' ++ [name'])
  | .moveIn _ dir name => some (dir ++ [name])
  | _ => none

-- a watch keeps its i-node in use
def Unwatched (W : Watches) : Op → Prop
  | .mkdir _ _ ino => W.find ino = none
  | .moveIn sub _ _ => ∀ y ∈ sub.dirs, W.find y.ino = none
  | _ => True

instance {W : Watches} : (op : Op) → Decidable (op.Unwatched W)
  | .mkdir _ _ ino => inferInstanceAs (Decidable (W.find ino = none))
  | .moveIn sub _ _ => inferInstanceAs (Decidable (∀ y ∈ sub.dirs, W.find y.ino = none))
  | .rmdir _ _ | .rename _ _ _ _ | .moveOut _ _ => inferInstanceAs (Decidable True)

end Op

namespace World

variable {root : Path}

def watchAt (w : World root) (cs : List Name) : Option ℕ :=
  (w.tree.get? cs).bind fun x => w.watches.find x.ino

def movedNotice (wd wd' : Option ℕ) (name name' : Name) (cookie : ℕ) : List Notice :=
  match wd, wd' with
  | some v, some w => [.renamed v name w name' cookie]
  | some v, none => [.movedOut v name cookie]
  | none, some w => [.appeared w name' (some cookie)]
  | none, none => []

def removedNotice : Option ℕ → List Notice
  | some wd => [.deleteSelf wd, .ignored wd]
  | none => []

def removedWatch (w : World root) (op : Op) : Option ℕ := op.removes.bind w.watchAt

def notices (w : World root) : Op → List Notice
  | .mkdir dir name _ => (w.watchAt dir).toList.map fun wd => .appeared wd name none
  | .rmdir _ _ => []
  | .rename dir name dir' name' => movedNotice (w.watchAt dir) (w.watchAt dir') name name' w.cookie
  | .moveOut dir name => movedNotice (w.watchAt dir) none name name w.cookie
  | .moveIn _ dir name => movedNotice none (w.watchAt dir) name name w.cookie

/-- The system calls of another process; `none` when the call fails. -/
def apply (w : World root) (op : Op) : Option (World root) :=
  if op.Unwatched w.watches then
    (op.tree w.tree).bind fun t =>
      if h : Nameable root t then
        some {
          tree := t
          watches := (w.removedWatch op).elim w.watches w.watches.remove
          queue := w.queue ++
            (w.notices op ++ removedNotice (w.removedWatch op)).flatMap Notice.events
          cookie := w.cookie + 1
          nameable := h
          noSlash := w.noSlash }
      else none
  else none

/-! ## System calls of the program -/

def lookup (w : World root) (p : Path) : Option (Dir Name) :=
  w.tree.dirs.find? fun x => dirPath root x = p

end World

/-- The choices of the kernel: unused watch descriptors, and the order of directory entries. -/
structure Choices where
  next : List ℕ → ℕ
  fresh : ∀ used, next used ∉ used
  order : List (Dir Name) → List (Dir Name)
  perm : ∀ l, (order l).Perm l

namespace World

variable {root : Path}

def withWatches (w : World root) (W : Watches) : World root := { w with watches := W }

def addWatch (L : Choices) (w : World root) (p : Path) : World root × AddResult :=
  match w.lookup p with
  | none => (w, .enoent)
  | some x =>
    match h : w.watches.find x.ino with
    | some wd => (w, .wd wd)
    | none =>
      (w.withWatches (w.watches.add (L.next w.watches.used) x.ino h), .wd (L.next w.watches.used))

def unwatch (w : World root) (wd : ℕ) : World root :=
  { w with watches := w.watches.remove wd, queue := w.queue ++ (Notice.ignored wd).events }

def rmWatch (w : World root) (wd : ℤ) : World root × Bool :=
  if 0 ≤ wd ∧ (w.watches.owner wd.toNat).isSome then (w.unwatch wd.toNat, true) else (w, false)

def nftw (L : Choices) (w : World root) (p : Path) : List (Path × Bool) :=
  match w.lookup p with
  | none => []
  | some x =>
    (L.order (w.tree.dirs.filter fun y => x.comps <+: y.comps)).map fun y => (dirPath root y, true)

/-- An event that does not fit is an error (`EINVAL`); without events the timer ends the call. -/
def read (w : World root) (space : ℤ) : World root × ReadResult :=
  match w.queue with
  | [] => (w, .eintr)
  | ev :: _ =>
    if ev.size ≤ space then
      ({ w with queue := w.queue.drop (fitting space w.queue).length },
        .events (fitting space w.queue))
    else (w, .error)

end World

def linux (L : Choices) (root : Path) : Kernel (World root) where
  addWatch w p _ := w.addWatch L p
  rmWatch w wd := w.rmWatch wd
  nftw w p := (w, w.nftw L p)
  reopen w := { w with watches := .empty, queue := [] }
  ready w := !w.queue.isEmpty
  read w space := w.read space

/-! ## What the operations do -/

namespace World

variable {root : Path} {w w' : World root} {x y : Dir Name} {p : Path} {cs : List Name} {wd : ℕ}

theorem path_inj (hx : x ∈ w.tree.dirs) (hy : y ∈ w.tree.dirs)
    (h : dirPath root x = dirPath root y) :
    x = y :=
  w.tree.comps_inj x hx y hy
    (pathOf_injective w.noSlash (w.nameable x hx).1 (w.nameable y hy).1 h)

theorem lookup_eq_some : w.lookup p = some x ↔ x ∈ w.tree.dirs ∧ dirPath root x = p := by
  constructor
  · intro h
    exact ⟨List.mem_of_find?_eq_some h, by simpa using List.find?_some h⟩
  · rintro ⟨hx, rfl⟩
    cases hf : w.lookup (dirPath root x) with
    | none => exact absurd (List.find?_eq_none.mp hf x hx) (by simp)
    | some y =>
      have hy : dirPath root y = dirPath root x := by simpa using List.find?_some hf
      rw [path_inj (List.mem_of_find?_eq_some hf) hx hy]

theorem addWatch_found {L : Choices} (hx : w.lookup p = some x)
    (h : w.watches.find x.ino = some wd) :
    w.addWatch L p = (w, .wd wd) := by
  simp only [addWatch, hx]
  split
  · next v hv => rw [Option.some.inj (hv.symm.trans h)]
  · next hv => exact absurd (hv.symm.trans h) (by simp)

theorem addWatch_new {L : Choices} (hx : w.lookup p = some x) (h : w.watches.find x.ino = none) :
    w.addWatch L p =
      (w.withWatches (w.watches.add (L.next w.watches.used) x.ino h),
        .wd (L.next w.watches.used)) := by
  simp only [addWatch, hx]
  split
  · next v hv => exact absurd (hv.symm.trans h) (by simp)
  · rfl

theorem watchAt_eq_some : w.watchAt cs = some wd ↔
    ∃ x ∈ w.tree.dirs, x.comps = cs ∧ w.watches.owner wd = some x.ino := by
  simp only [watchAt, Option.bind_eq_some_iff, DirTree.get?_eq_some, Watches.find_eq_some,
    and_assoc]

theorem apply_eq_some {op : Op} (h : w.apply op = some w') :
    op.Unwatched w.watches ∧ op.tree w.tree = some w'.tree ∧
      w'.watches = (w.removedWatch op).elim w.watches w.watches.remove ∧
      w'.queue = w.queue ++
        (w.notices op ++ removedNotice (w.removedWatch op)).flatMap Notice.events := by
  simp only [apply, Option.ite_none_right_eq_some, Option.bind_eq_some_iff,
    Option.dite_none_right_eq_some, Option.some.injEq] at h
  obtain ⟨hun, t, ht, hname, rfl⟩ := h
  exact ⟨hun, ht, rfl, rfl⟩

end World

end Tlpi.Inotify
