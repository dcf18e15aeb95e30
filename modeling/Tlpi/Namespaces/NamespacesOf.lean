import Mathlib.Tactic
import Tlpi.Lib.Strtol
import Tlpi.Namespaces.Linux

/-! `namespaces/namespaces_of.go`: a map of the namespaces of the scanned processes and of all
their ancestors, in which each namespace is entered in the list of children of its owner or parent,
and the display of the trees found in the map.

A file descriptor is modelled by the namespace it refers to. The recursive functions count nested
calls with a `fuel` argument. -/

namespace Tlpi.Namespaces.NamespacesOf
open Lib

structure CmdLineOptions where
  showPidnsHierarchy : Bool
  namespaces : ℕ

def allNamespaceSymlinkNames : List NsType := [.cgroup, .ipc, .mnt, .net, .pid, .user, .uts]

/-- The options without `--namespaces` and `--subtree`. -/
def defaultOptions (pidns : Bool) : CmdLineOptions where
  showPidnsHierarchy := pidns
  namespaces := allNamespaceSymlinkNames.foldl (fun flags t => flags ||| t.flag) 0

def CmdLineOptions.ioctlOp (opts : CmdLineOptions) : IoctlOp :=
  if opts.showPidnsHierarchy then .NS_GET_PARENT else .NS_GET_USERNS

@[ext] structure NamespaceAttribs where
  nsType : NsType
  pids : List ℤ := []
  children : List NamespaceID := []
  creatorUID : ℕ := 0
  deriving DecidableEq

@[ext] structure NamespaceInfo where
  nsList : NamespaceID → Option NamespaceAttribs
  rootNS : NamespaceID

/-- How a run ends early. -/
inductive Stop
  | outOfFuel
  | nilDereference
  | exit (diagnostic : String)
  deriving DecidableEq

namespace NamespaceInfo

-- the zero value of `rootNS` is the ID of `invisUserNS`
def empty : NamespaceInfo := ⟨fun _ => none, ⟨0, 0⟩⟩

def insert (nsi : NamespaceInfo) (ns : NamespaceID) (a : NamespaceAttribs) : NamespaceInfo :=
  { nsi with nsList := Function.update nsi.nsList ns (some a) }

def modify (nsi : NamespaceInfo) (ns : NamespaceID) (f : NamespaceAttribs → NamespaceAttribs) :
    Except Stop NamespaceInfo :=
  match nsi.nsList ns with
  | none => .error .nilDereference
  | some a => .ok (nsi.insert ns (f a))

def addChild (nsi : NamespaceInfo) (parent ns : NamespaceID) : Except Stop NamespaceInfo :=
  nsi.modify parent fun a => { a with children := a.children ++ [ns] }

def addPid (nsi : NamespaceInfo) (ns : NamespaceID) (pid : ℤ) : Except Stop NamespaceInfo :=
  nsi.modify ns fun a => { a with pids := a.pids ++ [pid] }

end NamespaceInfo

/-! ## The scan -/

mutual

def addNamespace (k : Kernel) (opts : CmdLineOptions) :
    ℕ → NamespaceInfo → NamespaceID → ℤ → Except Stop (NamespaceInfo × NamespaceID)
  | 0, _, _, _ => .error .outOfFuel
  | fuel + 1, nsi, ns, pid => do
    let nsi ← (if (nsi.nsList ns).isNone then addNamespaceToList k opts fuel nsi ns else .ok nsi)
    let nsi ← (if pid > 0 then nsi.addPid ns pid else .ok nsi)
    .ok (nsi, ns)

def addNamespaceToList (k : Kernel) (opts : CmdLineOptions) :
    ℕ → NamespaceInfo → NamespaceID → Except Stop NamespaceInfo
  | 0, _, _ => .error .outOfFuel
  | fuel + 1, nsi, ns =>
    let nsType := k.nsType ns
    let creatorUID := if nsType = .user then k.ownerUID ns else 0
    let nsi := nsi.insert ns { nsType := nsType, creatorUID := creatorUID }
    match k.ioctl ns opts.ioctlOp with
    | .error .EPERM =>
      if nsType = .user ∨ opts.ioctlOp = .NS_GET_PARENT then .ok { nsi with rootNS := ns }
      else
        let nsi :=
          if (nsi.nsList invisUserNS).isNone then nsi.insert invisUserNS { nsType := .user }
          else nsi
        nsi.addChild invisUserNS ns
    | .error err => .error (.exit ("ioctl(): " ++ err.text))
    | .ok parentFD => do
      let (nsi, parent) ← addNamespace k opts fuel nsi parentFD (-1)
      nsi.addChild parent ns

end

/-- A call of `addProcessNamespace()` with the outcome of `open()` in it. -/
structure Call where
  pid : List Char
  nsFile : NsType
  namespaceFD : Except Errno NamespaceID
  isCmdLineArg : Bool

def Call.couldNotOpen (c : Call) : String :=
  "Could not open /proc/" ++ String.ofList c.pid ++ "/ns/" ++ c.nsFile.symlink ++ ": "

def addProcessNamespace (k : Kernel) (opts : CmdLineOptions) (fuel : ℕ) (nsi : NamespaceInfo)
    (c : Call) : Except Stop NamespaceInfo :=
  match c.namespaceFD with
  | .error .EACCES =>
    .error (.exit (c.couldNotOpen ++ Errno.EACCES.text ++ "\nRerun this program as superuser"))
  | .error err =>
    if c.isCmdLineArg then .error (.exit (c.couldNotOpen ++ err.text)) else .ok nsi
  | .ok namespaceFD => do
    let (nsi, _) ← addNamespace k opts fuel nsi namespaceFD (strconvAtoi c.pid)
    .ok nsi

/-- A process with what `open()` of its namespace files gives. -/
structure Process where
  pid : List Char
  openNs : NsType → Except Errno NamespaceID

def nsSymlinks (opts : CmdLineOptions) : List NsType :=
  if opts.showPidnsHierarchy then [.pid] else allNamespaceSymlinkNames

/-- The calls that the two nested loops over processes and namespace files make. -/
def calls (opts : CmdLineOptions) (isCmdLineArg : Bool) (procs : List Process) : List Call :=
  procs.flatMap fun p => (nsSymlinks opts).map fun f => ⟨p.pid, f, p.openNs f, isCmdLineArg⟩

def addProcesses (k : Kernel) (opts : CmdLineOptions) (fuel : ℕ) (isCmdLineArg : Bool)
    (procs : List Process) : Except Stop NamespaceInfo :=
  (calls opts isCmdLineArg procs).foldlM (addProcessNamespace k opts fuel) .empty

/-! ## The display -/

def CmdLineOptions.shows (opts : CmdLineOptions) (nsType : NsType) : Bool :=
  nsType = .user ∨ nsType.flag &&& opts.namespaces ≠ 0

/-- The namespaces in the order of the output, each with its level of indentation. -/
def displayNamespaceTree (opts : CmdLineOptions) (nsi : NamespaceInfo) :
    ℕ → NamespaceID → ℕ → Except Stop (List (NamespaceID × ℕ))
  | 0, _, _ => .error .outOfFuel
  | fuel + 1, ns, level =>
    match nsi.nsList ns with
    | none => .error .nilDereference
    | some a => do
      let node := if opts.shows a.nsType then [(ns, level)] else []
      let trees ← a.children.mapM fun child => displayNamespaceTree opts nsi fuel child (level + 1)
      .ok (node ++ trees.flatten)

-- without `--subtree`
def displayNamespaceHierarchies (opts : CmdLineOptions) (fuel : ℕ) (nsi : NamespaceInfo) :
    Except Stop (List (NamespaceID × ℕ)) := do
  let tree ← displayNamespaceTree opts nsi fuel nsi.rootNS 0
  let invisible ←
    (if (nsi.nsList invisUserNS).isSome then displayNamespaceTree opts nsi fuel invisUserNS 0
    else .ok [])
  .ok (tree ++ invisible)

/-- Names in `/proc` that start with a digit are processes; those given as arguments are taken
instead if there are any. -/
def main (k : Kernel) (opts : CmdLineOptions) (fuel : ℕ) (procFiles args : List Process) :
    Except Stop (List (NamespaceID × ℕ)) := do
  let nsi ←
    (if args.isEmpty then
      addProcesses k opts fuel false
        (procFiles.filter fun p => p.pid.head?.any fun ch => '1' ≤ ch && ch ≤ '9')
    else addProcesses k opts fuel true args)
  displayNamespaceHierarchies opts fuel nsi

end Tlpi.Namespaces.NamespacesOf
