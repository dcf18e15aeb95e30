import Mathlib.Tactic
import Tlpi.Lib.CString
import Tlpi.Lib.Strtol
import Tlpi.Lib.Machine

/-! `namespaces/userns_child_exec.c`: the parent writes the ID maps of the child and then closes
its end of a pipe, the child executes the command after it has read end-of-file. End-of-file says
that no process has the write end open, which is also so when the parent has terminated. -/

namespace Tlpi.Namespaces
open Lib

/-! ## The command line -/

inductive CloneFlag
  | newcgroup | newipc | newns | newnet | newpid | newuts | newuser
  deriving DecidableEq

structure Options where
  flags : List CloneFlag := []
  verbose : Bool := false
  gid_map : Option (List Char) := none
  uid_map : Option (List Char) := none
  create_root_mappings : Bool := false
  deny_setgroups : Bool := true
  useAmbient : Bool := false
  newuid : ℤ := -1
  secbits : ℕ := 0

-- `SECBIT_NOROOT` and `SECBIT_NO_SETUID_FIXUP`
def parseSecbits (bits : ℕ) : List Char → Option ℕ
  | [] => some bits
  | 'r' :: p => parseSecbits (bits ||| 1) p
  | 's' :: p => parseSecbits (bits ||| 4) p
  | _ :: _ => none

/-- One option as `getopt()` returns it with `optarg`; `none` is `usage()`. -/
def applyOpt (o : Options) : Char × List Char → Option Options
  | ('C', _) => some { o with flags := .newcgroup :: o.flags }
  | ('i', _) => some { o with flags := .newipc :: o.flags }
  | ('m', _) => some { o with flags := .newns :: o.flags }
  | ('n', _) => some { o with flags := .newnet :: o.flags }
  | ('p', _) => some { o with flags := .newpid :: o.flags }
  | ('u', _) => some { o with flags := .newuts :: o.flags }
  | ('U', _) => some { o with flags := .newuser :: o.flags }
  | ('M', optarg) => some { o with uid_map := some optarg }
  | ('G', optarg) => some { o with gid_map := some optarg }
  | ('r', _) | ('z', _) => some { o with create_root_mappings := true }
  | ('D', _) => some { o with deny_setgroups := false }
  | ('v', _) => some { o with verbose := true }
  | ('a', _) => some { o with useAmbient := true }
  | ('s', optarg) => some { o with newuid := atoi optarg }
  | ('b', optarg) => (parseSecbits 0 optarg).map fun bits => { o with secbits := bits }
  | _ => none

namespace Options

def uidRequested (o : Options) : Bool := o.uid_map.isSome || o.create_root_mappings
def gidRequested (o : Options) : Bool := o.gid_map.isSome || o.create_root_mappings

def nonsensical (o : Options) : Bool :=
  ((o.uid_map.isSome || o.gid_map.isSome || o.create_root_mappings) &&
      !decide (CloneFlag.newuser ∈ o.flags)) ||
    (o.create_root_mappings && (o.uid_map.isSome || o.gid_map.isSome))

end Options

/-- A command line that `main()` accepts. -/
structure Command where
  opts : Options
  argv : List String
  sensible : opts.nonsensical = false
  nonempty : argv ≠ []

def parse (options : List (Char × List Char)) (operands : List String) : Option Command := do
  let o ← options.foldlM applyOpt {}
  if h : o.nonsensical = false ∧ operands ≠ [] then some ⟨o, operands, h.1, h.2⟩ else none

/-! ## The calls of the parent -/

structure MapCalls where
  openOk : Bool
  write : ℤ

inductive OpenErr
  | enoent | other

structure SetgroupsCalls where
  openErr : Option OpenErr
  write : ℤ

/-- What the parent gets from the kernel. -/
structure Env where
  uid : ℕ
  gid : ℕ
  uidCalls : MapCalls
  setgroupsCalls : SetgroupsCalls
  gidCalls : MapCalls

def commasToNewlines (mapping : List Char) : List Char :=
  mapping.map fun c => if c = ',' then '\n' else c

/-- The status, and what has been written to the file. -/
def update_map (mapping : List Char) (k : MapCalls) : ℤ × Option (List Char) :=
  let mapping := commasToNewlines mapping
  if k.openOk = false then (-1, none)
  else if k.write ≠ mapping.length then (-1, none)
  else (0, some mapping)

-- without the file there is no restriction to lift, so `ENOENT` is not an error
def proc_setgroups_write (str : List Char) (k : SetgroupsCalls) : ℤ × Option (List Char) :=
  match k.openErr with
  | some .enoent => (0, none)
  | some .other => (-1, none)
  | none => if k.write = -1 then (-1, none) else (0, some str)

theorem update_map_snd {mapping : List Char} {k : MapCalls} (h : (update_map mapping k).1 ≠ -1) :
    (update_map mapping k).2 = some (commasToNewlines mapping) := by
  by_cases hok : k.openOk = false ∨ k.write ≠ (commasToNewlines mapping).length
  · refine absurd ?_ h
    rcases hok with hok | hok <;> simp [update_map, hok]
  · push Not at hok
    simp [update_map, hok]

def MAP_BUF_SIZE : ℕ := 100

def rootMapping (id : ℕ) : List Char := snprintf MAP_BUF_SIZE ("0 " ++ toString id ++ " 1").toList

def uidMapping (c : Command) (e : Env) : List Char :=
  if c.opts.create_root_mappings then rootMapping e.uid else c.opts.uid_map.getD []

def gidMapping (c : Command) (e : Env) : List Char :=
  if c.opts.create_root_mappings then rootMapping e.gid else c.opts.gid_map.getD []

/-! ## Parent and child after `clone()` -/

inductive ParentPc
  | uidMap | setgroups | gidMap | closeWr | waitpid
  | exited (failure : Option String)
  deriving DecidableEq

inductive ChildPc
  | closeWr | readPipe | closeRd | securebits | setresuid | ambient | execvp | command
  | exited (failure : Option String)
  deriving DecidableEq

/-- The map files are `none` until something is written to them; `parentWr` and `childWr` say who
has the write end of the pipe open. -/
structure State where
  parent : ParentPc
  child : ChildPc
  parentWr : Bool
  childWr : Bool
  uidFile : Option (List Char)
  gidFile : Option (List Char)
  setgroupsFile : Option (List Char)

def initial : State where
  parent := .uidMap
  child := .closeWr
  parentWr := true
  childWr := true
  uidFile := none
  gidFile := none
  setgroupsFile := none

-- the kernel closes the descriptors of a process that terminates
def parentExit (s : State) (failure : Option String) : State :=
  { s with parent := .exited failure, parentWr := false }

def childExit (s : State) (failure : Option String) : State :=
  { s with child := .exited failure, childWr := false }

def writeUidMap (c : Command) (e : Env) (s : State) : State :=
  if c.opts.uidRequested then
    let r := update_map (uidMapping c e) e.uidCalls
    if r.1 = -1 then parentExit s (some "update_map: uid_map")
    else { s with parent := .setgroups, uidFile := r.2 }
  else { s with parent := .setgroups }

def writeSetgroups (c : Command) (e : Env) (s : State) : State :=
  if c.opts.gidRequested && c.opts.deny_setgroups then
    let r := proc_setgroups_write "deny".toList e.setgroupsCalls
    if r.1 = -1 then parentExit s (some "proc_setgroups_write")
    else { s with parent := .gidMap, setgroupsFile := r.2 }
  else { s with parent := .gidMap }

def writeGidMap (c : Command) (e : Env) (s : State) : State :=
  if c.opts.gidRequested then
    let r := update_map (gidMapping c e) e.gidCalls
    if r.1 = -1 then parentExit s (some "update_map: gid_map")
    else { s with parent := .closeWr, gidFile := r.2 }
  else { s with parent := .closeWr }

def parentStep (c : Command) (e : Env) (s : State) : Option State :=
  match s.parent with
  | .uidMap => some (writeUidMap c e s)
  | .setgroups => some (writeSetgroups c e s)
  | .gidMap => some (writeGidMap c e s)
  | .closeWr => some { s with parent := .waitpid, parentWr := false }
  | .waitpid =>
    match s.child with
    | .exited _ => some (parentExit s none)
    | _ => none
  | .exited _ => none

/-- A step of the child; `ok` is whether its system call succeeds. -/
def childStep (c : Command) (ok : Bool) (s : State) : Option State :=
  match s.child with
  | .closeWr => some { s with child := .readPipe, childWr := false }
  | .readPipe =>
    if ok then
      -- `read()` blocks as long as somebody could still write
      if s.parentWr || s.childWr then none else some { s with child := .closeRd }
    else some (childExit s (some "Failure in child: read from pipe returned != 0\n"))
  | .closeRd => some { s with child := .securebits }
  | .securebits =>
    if c.opts.secbits ≠ 0 ∧ ok = false then some (childExit s (some "prctl"))
    else some { s with child := .setresuid }
  | .setresuid =>
    if 0 ≤ c.opts.newuid ∧ ok = false then some (childExit s (some "setresuid"))
    else some { s with child := .ambient }
  | .ambient => some { s with child := .execvp }
  | .execvp =>
    if ok then some { s with child := .command } else some (childExit s (some "execvp"))
  | .command => some (childExit s none)
  | .exited _ => none

inductive Act
  | parent
  | waitpidFails
  | child (ok : Bool)

def machine (c : Command) (e : Env) : Machine State Act where
  init s := s = initial
  step s
    | .parent => parentStep c e s
    | .waitpidFails => if s.parent = .waitpid then some (parentExit s (some "waitpid")) else none
    | .child ok => childStep c ok s

def MapsInPlace (c : Command) (e : Env) (s : State) : Prop :=
  (c.opts.uidRequested → s.uidFile = some (commasToNewlines (uidMapping c e))) ∧
    (c.opts.gidRequested → s.gidFile = some (commasToNewlines (gidMapping c e)))

/-- Every call that `main()` makes for the requested maps succeeds. -/
def ParentSucceeds (c : Command) (e : Env) : Prop :=
  (c.opts.uidRequested → (update_map (uidMapping c e) e.uidCalls).1 ≠ -1) ∧
    (c.opts.gidRequested →
      (c.opts.deny_setgroups → (proc_setgroups_write "deny".toList e.setgroupsCalls).1 ≠ -1) ∧
        (update_map (gidMapping c e) e.gidCalls).1 ≠ -1)

/-! ## Maps before the command, if the parent succeeds -/

def ParentPc.rank : ParentPc → ℕ
  | .uidMap => 0
  | .setgroups => 1
  | .gidMap => 2
  | .closeWr => 3
  | .waitpid => 4
  | .exited _ => 5

def ChildPc.waits : ChildPc → Bool
  | .closeWr | .readPipe | .exited _ => true
  | _ => false

structure Inv (c : Command) (e : Env) (s : State) : Prop where
  uid : 1 ≤ s.parent.rank → c.opts.uidRequested →
    s.uidFile = some (commasToNewlines (uidMapping c e))
  gid : 3 ≤ s.parent.rank → c.opts.gidRequested →
    s.gidFile = some (commasToNewlines (gidMapping c e))
  pipe : s.parentWr = false → 4 ≤ s.parent.rank
  eof : s.child.waits = false → s.parentWr = false

variable {c : Command} {e : Env}

theorem inv_initial : Inv c e initial := by
  constructor <;> simp [initial, ParentPc.rank, ChildPc.waits]

theorem inv_parent {s s' : State} (hok : ParentSucceeds c e) (h : Inv c e s)
    (hs : parentStep c e s = some s') : Inv c e s' := by
  unfold parentStep at hs
  split at hs
  · next hp =>
    have hwr : s.parentWr ≠ false := fun hw => absurd (h.pipe hw) (by simp [hp, ParentPc.rank])
    obtain rfl := Option.some.inj hs
    simp only [writeUidMap]
    split_ifs with hreq hfail
    · exact absurd hfail (hok.1 hreq)
    · exact ⟨fun _ _ => update_map_snd hfail, by simp [ParentPc.rank], fun hw => absurd hw hwr,
        h.eof⟩
    · exact ⟨fun _ hr => absurd hr hreq, by simp [ParentPc.rank], fun hw => absurd hw hwr, h.eof⟩
  · next hp =>
    have hwr : s.parentWr ≠ false := fun hw => absurd (h.pipe hw) (by simp [hp, ParentPc.rank])
    have huid := h.uid (by simp [hp, ParentPc.rank])
    obtain rfl := Option.some.inj hs
    simp only [writeSetgroups]
    split_ifs with hreq hfail
    · rw [Bool.and_eq_true] at hreq
      exact absurd hfail ((hok.2 hreq.1).1 hreq.2)
    all_goals exact ⟨fun _ => huid, by simp [ParentPc.rank], fun hw => absurd hw hwr, h.eof⟩
  · next hp =>
    have hwr : s.parentWr ≠ false := fun hw => absurd (h.pipe hw) (by simp [hp, ParentPc.rank])
    have huid := h.uid (by simp [hp, ParentPc.rank])
    obtain rfl := Option.some.inj hs
    simp only [writeGidMap]
    split_ifs with hreq hfail
    · exact absurd hfail (hok.2 hreq).2
    · exact ⟨fun _ => huid, fun _ _ => update_map_snd hfail, fun hw => absurd hw hwr, h.eof⟩
    · exact ⟨fun _ => huid, fun _ hr => absurd hr hreq, fun hw => absurd hw hwr, h.eof⟩
  · next hp =>
    obtain rfl := Option.some.inj hs
    exact ⟨fun _ => h.uid (by simp [hp, ParentPc.rank]),
      fun _ => h.gid (by simp [hp, ParentPc.rank]),
      fun _ => by simp [ParentPc.rank], fun _ => rfl⟩
  · next hp =>
    split at hs
    · obtain rfl := Option.some.inj hs
      exact ⟨fun _ => h.uid (by simp [hp, ParentPc.rank]),
        fun _ => h.gid (by simp [hp, ParentPc.rank]), fun _ => by simp [parentExit, ParentPc.rank],
        fun _ => rfl⟩
    · cases hs
  · cases hs

/-- The child changes only its own state, and passes the `read()` only when the pipe is closed. -/
theorem childStep_frame {s s' : State} {ok : Bool} (hs : childStep c ok s = some s') :
    ∃ pc wr, s' = { s with child := pc, childWr := wr } ∧
      (pc.waits = false → s.child.waits = false ∨ s.parentWr = false) := by
  unfold childStep at hs
  split at hs
  · exact ⟨_, _, (Option.some.inj hs).symm, by simp [ChildPc.waits]⟩
  · split_ifs at hs with hok hwr
    · rw [Bool.or_eq_true, not_or, Bool.not_eq_true, Bool.not_eq_true] at hwr
      exact ⟨_, _, (Option.some.inj hs).symm, fun _ => .inr hwr.1⟩
    · exact ⟨_, _, (Option.some.inj hs).symm, by simp [ChildPc.waits]⟩
  all_goals
    next hc =>
    try split_ifs at hs
    all_goals first
      | exact ⟨_, _, (Option.some.inj hs).symm, fun _ => .inl (by rw [hc]; rfl)⟩
      | cases hs

theorem inv_child {s s' : State} {ok : Bool} (h : Inv c e s) (hs : childStep c ok s = some s') :
    Inv c e s' := by
  obtain ⟨pc, wr, rfl, hpc⟩ := childStep_frame hs
  exact ⟨h.uid, h.gid, h.pipe, fun hw => (hpc hw).elim h.eof id⟩

theorem inv_step {s s' : State} (hok : ParentSucceeds c e) (a : Act) (h : Inv c e s)
    (hs : (machine c e).step s a = some s') : Inv c e s' := by
  cases a with
  | parent => exact inv_parent hok h hs
  | child ok => exact inv_child h hs
  | waitpidFails =>
    simp only [machine, Option.ite_none_right_eq_some, Option.some.injEq] at hs
    obtain ⟨hp, rfl⟩ := hs
    exact ⟨fun _ => h.uid (by simp [hp, ParentPc.rank]),
      fun _ => h.gid (by simp [hp, ParentPc.rank]),
      fun _ => by simp [parentExit, ParentPc.rank], fun _ => rfl⟩

theorem maps_in_place_of_succeeds (hok : ParentSucceeds c e) {s : State}
    (hs : (machine c e).Reachable s) (hc : s.child = .execvp) : MapsInPlace c e s := by
  have h : Inv c e s := hs.invariant (fun _ h0 => h0 ▸ inv_initial) fun _ a _ => inv_step hok a
  have hrank := h.pipe (h.eof (by rw [hc]; rfl))
  exact ⟨h.uid (by omega), h.gid (by omega)⟩

/-! ## The command without the maps, if the parent fails -/

/-- Once the parent has terminated, the child runs on to `execvp()`. -/
theorem child_reaches_execvp {s : State} (hs : (machine c e).Reachable s)
    (hc : s.child = .closeWr) (hwr : s.parentWr = false) :
    (machine c e).Reachable { s with child := .execvp, childWr := false } := by
  refine Machine.reachable_execUnder hs (List.replicate 6 (.child true)) ?_
  simp [List.replicate, Machine.execUnder, machine, childStep, hc, hwr]

theorem parent_step_reachable {s s' : State} (hs : (machine c e).Reachable s)
    (h : parentStep c e s = some s') : (machine c e).Reachable s' :=
  .step .parent hs trivial h

theorem writeUidMap_ok (h : c.opts.uidRequested → (update_map (uidMapping c e) e.uidCalls).1 ≠ -1)
    (s : State) : ∃ u, writeUidMap c e s = { s with parent := .setgroups, uidFile := u } := by
  by_cases hreq : c.opts.uidRequested
  · exact ⟨(update_map (uidMapping c e) e.uidCalls).2, by simp [writeUidMap, hreq, h hreq]⟩
  · exact ⟨s.uidFile, by simp [writeUidMap, hreq]⟩

theorem writeSetgroups_ok
    (h : c.opts.deny_setgroups → (proc_setgroups_write "deny".toList e.setgroupsCalls).1 ≠ -1)
    (s : State) : ∃ g, writeSetgroups c e s = { s with parent := .gidMap, setgroupsFile := g } := by
  by_cases hreq : (c.opts.gidRequested && c.opts.deny_setgroups) = true
  · have hok := h (Bool.and_eq_true_iff.mp hreq).2
    refine ⟨(proc_setgroups_write "deny".toList e.setgroupsCalls).2, ?_⟩
    simp only [writeSetgroups, hreq, hok, if_true, if_false]
  · exact ⟨s.setgroupsFile, by simp [writeSetgroups, hreq]⟩

/-- The parent terminates at the first call that fails, before the map of that call is written. -/
theorem parent_fails (h : ¬ ParentSucceeds c e) : ∃ s, (machine c e).Reachable s ∧
    s.child = .closeWr ∧ s.parentWr = false ∧ ¬ MapsInPlace c e s := by
  have h0 : (machine c e).Reachable initial := .init rfl
  have h1 : (machine c e).Reachable (writeUidMap c e initial) := parent_step_reachable h0 rfl
  by_cases huid : c.opts.uidRequested → (update_map (uidMapping c e) e.uidCalls).1 ≠ -1
  swap
  · push Not at huid
    exact ⟨_, h1, by simp [writeUidMap, huid, parentExit, initial, MapsInPlace]⟩
  obtain ⟨u, hu⟩ := writeUidMap_ok huid initial
  rw [hu] at h1
  have h2 : (machine c e).Reachable (writeSetgroups c e _) := parent_step_reachable h1 rfl
  have hgid : c.opts.gidRequested := by
    by_contra hg
    exact h ⟨huid, fun hr => absurd hr hg⟩
  by_cases hset : c.opts.deny_setgroups →
      (proc_setgroups_write "deny".toList e.setgroupsCalls).1 ≠ -1
  swap
  · push Not at hset
    refine ⟨_, h2, ?_⟩
    simp only [writeSetgroups, hgid, hset, Bool.and_self, if_true]
    simp [parentExit, initial, MapsInPlace, hgid]
  obtain ⟨g, hg⟩ := writeSetgroups_ok hset { initial with parent := .setgroups, uidFile := u }
  rw [hg] at h2
  have h3 : (machine c e).Reachable (writeGidMap c e _) := parent_step_reachable h2 rfl
  have hfail : (update_map (gidMapping c e) e.gidCalls).1 = -1 := by
    by_contra hok
    exact h ⟨huid, fun _ => ⟨hset, hok⟩⟩
  exact ⟨_, h3, by simp [writeGidMap, hgid, hfail, parentExit, initial, MapsInPlace]⟩

/-- The command runs only with the requested maps in place, in every interleaving, exactly when
no call of the parent fails. -/
theorem userns_child_exec_maps_iff (c : Command) (e : Env) :
    (∀ s, (machine c e).Reachable s → s.child = .execvp → MapsInPlace c e s) ↔
      ParentSucceeds c e := by
  constructor
  · intro h
    by_contra hfail
    obtain ⟨s, hs, hc, hwr, hmaps⟩ := parent_fails hfail
    have hexec := h _ (child_reaches_execvp hs hc hwr) rfl
    exact hmaps hexec
  · exact fun hok s hs hc => maps_in_place_of_succeeds hok hs hc

/-- `-U -M "0 1000 1" id` -/
def mapUid : Command where
  opts := { flags := [.newuser], uid_map := some "0 1000 1".toList }
  argv := ["id"]
  sensible := rfl
  nonempty := by decide

def openDenied : Env where
  uid := 1000
  gid := 1000
  uidCalls := ⟨false, -1⟩
  setgroupsCalls := ⟨none, 4⟩
  gidCalls := ⟨true, 8⟩

/-- The parent cannot open the map file and terminates; the child takes the end-of-file that
follows for the signal that the map has been written. -/
theorem userns_child_exec_without_map :
    parse [('U', []), ('M', "0 1000 1".toList)] ["id"] = some mapUid ∧
      ¬ ∀ s, (machine mapUid openDenied).Reachable s → s.child = .execvp →
        MapsInPlace mapUid openDenied s := by
  refine ⟨rfl, fun h => ?_⟩
  have hs : (machine mapUid openDenied).Reachable (writeUidMap mapUid openDenied initial) :=
    parent_step_reachable (.init rfl) rfl
  have hmaps := h _ (child_reaches_execvp hs rfl rfl) rfl
  exact absurd (hmaps.1 rfl) (by decide)

end Tlpi.Namespaces
