import Tlpi.Lib.GoPath

/-! The walk of `cgroups/view_v2_cgroups.go` through the directories below one that is named on the
command line, and the line that `displayCgroup()` writes for each of them. The depth of a directory
is computed from the numbers of slashes in its pathname and in that of the root of the walk. -/

namespace Tlpi.Cgroups
open Lib Lib.GoPath

def ESC : String := "\x1b"
def GREEN : Bytes := ascii (ESC ++ "[92m")
def LIGHT_PURPLE : Bytes := ascii (ESC ++ "[38;5;93m")
def BOLD : Bytes := ascii (ESC ++ "[1m")
def NORMAL : Bytes := ascii (ESC ++ "(B" ++ ESC ++ "[m")
def REVERSE : Bytes := ascii (ESC ++ "[7m")
def UNDERLINE : Bytes := ascii (ESC ++ "[4m")

def cgroupColor : List (Bytes × Bytes) :=
  [(ascii "root", []), (ascii "domain", []),
    (ascii "domain threaded", UNDERLINE ++ BOLD ++ GREEN),
    (ascii "threaded", GREEN),
    (ascii "domain invalid", REVERSE ++ LIGHT_PURPLE)]

def cgroupAbbrev : List (Bytes × Bytes) :=
  [(ascii "root", ascii "[/]"), (ascii "domain", ascii "[d]"),
    (ascii "domain threaded", ascii "[dt]"),
    (ascii "threaded", ascii "[t]"),
    (ascii "domain invalid", ascii "[inv]")]

/-- A name that is not in a map has the empty string there. -/
def at? (m : List (Bytes × Bytes)) (name : Bytes) : Bytes := (m.lookup name).getD []

/-- `strings.Repeat()`, which panics if the count is negative. -/
def repeated (s : Bytes) (count : ℤ) : Option Bytes :=
  if count < 0 then none else some (List.replicate count.toNat s).flatten

def level (rootSlashCnt : ℤ) (path : Bytes) : ℤ := (split path).length - rootSlashCnt

/-- The first line for a cgroup, up to the controllers; `cgroupType` is what `cgroup.type` holds,
and `root` if that file cannot be read. -/
def displayCgroup (cgroupType : Bytes → Bytes) (rootSlashCnt : ℤ) (path : Bytes) : Option Bytes :=
  (repeated [blank] (4 * level rootSlashCnt path)).map fun indent =>
    let p := if 0 < level rootSlashCnt path then base path else path
    indent ++ at? cgroupColor (cgroupType path) ++ p ++ NORMAL ++ [blank] ++
      at? cgroupAbbrev (cgroupType path)

/-! ## The walk -/

abbrev Name := {n : Bytes // IsName n}

/-- The entries of a directory. -/
inductive Entries
  | nil
  | file (name : Name) (rest : Entries)
  | dir (name : Name) (entries rest : Entries)

/-- The directories that `filepath.Walk()` passes to `walkFn()` below `path`. -/
def walkEntries (path : Bytes) : Entries → List Bytes
  | .nil => []
  | .file _ rest => walkEntries path rest
  | .dir name entries rest =>
    join path name.val :: walkEntries (join path name.val) entries ++ walkEntries path rest

def walk (root : Bytes) (entries : Entries) : List Bytes := root :: walkEntries root entries

/-- What is written for one argument on the command line. -/
def view (cgroupType : Bytes → Bytes) (f : Bytes) (entries : Entries) : List (Option Bytes) :=
  (walk (clean f) entries).map (displayCgroup cgroupType (split (clean f)).length)

/-- The directories below a directory, by the names that lead to them. -/
def Entries.dirs : Entries → List (List Name)
  | .nil => []
  | .file _ rest => rest.dirs
  | .dir name entries rest => [name] :: entries.dirs.map (name :: ·) ++ rest.dirs

/-- The pathname that the walk has for a directory. -/
def pathBelow (root : Bytes) (names : List Name) : Bytes :=
  names.foldl (fun path name => join path name.val) root

theorem walkEntries_eq (path : Bytes) (entries : Entries) :
    walkEntries path entries = entries.dirs.map (pathBelow path) := by
  induction entries generalizing path with
  | nil => rfl
  | file name rest ih => exact ih path
  | dir name entries rest ihEntries ihRest =>
    rw [walkEntries, ihEntries, ihRest, Entries.dirs, List.map_append, List.map_cons, List.map_map]
    rfl

/-! ## Depths -/

section Depth
variable (f : Bytes) (names : List Name)

theorem isName_of_mem_map {n : Bytes} (hn : n ∈ names.map Subtype.val) : IsName n := by
  obtain ⟨name, -, rfl⟩ := List.mem_map.mp hn
  exact name.property

theorem pathBelow_clean :
    pathBelow (clean f) names = render (isRooted f) (elements f ++ names.map Subtype.val) := by
  rw [← foldl_join_render (canonical_elements f) fun _ => isName_of_mem_map names, List.foldl_map,
    pathBelow, clean]

theorem level_pathBelow : level (split (clean f)).length (pathBelow (clean f) names) =
    max 1 ((elements f).length + names.length) - max 1 (elements f).length := by
  have hcanonical := canonical_elements f
  have hbelow := hcanonical.append fun _ => isName_of_mem_map names
  rw [level, pathBelow_clean, length_split_render hbelow, clean, length_split_render hcanonical,
    List.length_append, List.length_map]
  push_cast
  ring

theorem level_eq_length_iff :
    level (split (clean f)).length (pathBelow (clean f) names) = names.length ↔
      names = [] ∨ elements f ≠ [] := by
  rw [level_pathBelow, ← List.length_pos_iff, ← List.length_eq_zero_iff]
  omega

end Depth

/-- The line for a cgroup at its depth, the root of the walk with its whole pathname and the others
with their last name. -/
def lineAt (cgroupType : Bytes → Bytes) (f : Bytes) (names : List Name) : Bytes :=
  List.replicate (4 * names.length) blank ++
    at? cgroupColor (cgroupType (pathBelow (clean f) names)) ++
    (names.getLast?.map Subtype.val).getD (clean f) ++ NORMAL ++ [blank] ++
    at? cgroupAbbrev (cgroupType (pathBelow (clean f) names))

theorem displayCgroup_eq (cgroupType : Bytes → Bytes) {f : Bytes} {names : List Name}
    (hlevel : level (split (clean f)).length (pathBelow (clean f) names) = names.length) :
    displayCgroup cgroupType (split (clean f)).length (pathBelow (clean f) names) =
      some (lineAt cgroupType f names) := by
  have hindent : repeated [blank] (4 * (names.length : ℤ)) =
      some (List.replicate (4 * names.length) blank) := by
    rw [repeated, if_neg (by omega), List.flatten_replicate_singleton]
    congr 2
  rw [displayCgroup, hlevel, hindent, Option.map_some, lineAt]
  rcases List.eq_nil_or_concat' names with rfl | ⟨names, name, rfl⟩
  · rfl
  · have hbase : base (pathBelow (clean f) (names ++ [name])) = name := by
      rw [pathBelow_clean, List.map_append, ← List.append_assoc]
      exact base_render _ name.property
    rw [if_pos (by simp), hbase, List.getLast?_concat]
    rfl

theorem view_eq (cgroupType : Bytes → Bytes) (f : Bytes) (entries : Entries) :
    view cgroupType f entries = ([] :: entries.dirs).map fun names =>
      displayCgroup cgroupType (split (clean f)).length (pathBelow (clean f) names) := by
  rw [view, walk, walkEntries_eq, List.map_cons, List.map_cons, List.map_map]
  rfl

/-- The depths are right unless the walk begins at the root directory or the current directory,
whose pathnames have as many slashes as those of the directories in them. -/
theorem displayCgroup_depth_iff (cgroupType : Bytes → Bytes) (f : Bytes) (entries : Entries) :
    (view cgroupType f entries = ([] :: entries.dirs).map fun names =>
      displayCgroup cgroupType (split (clean f)).length (pathBelow (clean f) names)) ∧
    ∀ names ∈ [] :: entries.dirs,
      (level (split (clean f)).length (pathBelow (clean f) names) = names.length ∧
        displayCgroup cgroupType (split (clean f)).length (pathBelow (clean f) names) =
          some (lineAt cgroupType f names)) ↔
      names = [] ∨ ¬ (clean f = dot ∨ clean f = [slash]) := by
  refine ⟨view_eq cgroupType f entries, ?_⟩
  intro names _
  rw [clean, render_eq_iff (canonical_elements f), ← clean, ← level_eq_length_iff]
  constructor
  · exact fun h => h.1
  · exact fun h => ⟨h, displayCgroup_eq cgroupType h⟩

/-- A directory `a` in the current directory, and one in the root directory. -/
theorem displayCgroup_loses_level :
    pathBelow (clean (ascii ".")) [⟨ascii "a", by decide⟩] = ascii "a" ∧
    level (split (clean (ascii "."))).length (ascii "a") = 0 ∧
    pathBelow (clean (ascii "/")) [⟨ascii "a", by decide⟩] = ascii "/a" ∧
    level (split (clean (ascii "/"))).length (ascii "/a") = 0 ∧
    displayCgroup (fun _ => ascii "domain") (split (clean (ascii "/"))).length (ascii "/a") =
      some (ascii "/a" ++ NORMAL ++ ascii " [d]") := by
  decide +kernel

end Tlpi.Cgroups
