import Mathlib.Tactic
import Tlpi.Lib.Outcome
import Tlpi.Namespaces.Display

/-! `namespaces/pid_namespaces.go`: the PID namespace hierarchy, built by one recursive function. It
is the hierarchy that `namespaces_of.go` builds with `--pidns`; the two programs run in step, two
nested calls of the other program for each one here. -/

namespace Tlpi.Namespaces.PidNamespaces
open Lib NamespacesOf

structure NamespaceAttribs where
  children : List NamespaceID := []
  pids : List ℤ := []

/-- The global variables. -/
@[ext] structure Globals where
  NSList : NamespaceID → Option NamespaceAttribs
  initialPidNS : NamespaceID

namespace Globals

def empty : Globals := ⟨fun _ => none, ⟨0, 0⟩⟩

def insert (g : Globals) (ns : NamespaceID) (a : NamespaceAttribs) : Globals :=
  { g with NSList := Function.update g.NSList ns (some a) }

def modify (g : Globals) (ns : NamespaceID) (f : NamespaceAttribs → NamespaceAttribs) :
    Except Stop Globals :=
  match g.NSList ns with
  | none => .error .nilDereference
  | some a => .ok (g.insert ns (f a))

end Globals

def addNamespace (k : Kernel) :
    ℕ → Globals → NamespaceID → ℤ → Except Stop (Globals × NamespaceID)
  | 0, _, _, _ => .error .outOfFuel
  | fuel + 1, g, nsid, pid => do
    let g ← (if (g.NSList nsid).isNone then
        let g := g.insert nsid {}
        match k.ioctl nsid .NS_GET_PARENT with
        | .error .EPERM => .ok { g with initialPidNS := nsid }
        | .error err => .error (.exit ("ioctl(NS_GET_PARENT): " ++ err.text))
        | .ok parentFD => do
          let (g, p) ← addNamespace k fuel g parentFD (-1)
          g.modify p fun a => { a with children := a.children ++ [nsid] }
      else .ok g)
    let g ← (if pid > 0 then g.modify nsid fun a => { a with pids := a.pids ++ [pid] } else .ok g)
    .ok (g, nsid)

def addProcessNamespace (k : Kernel) (fuel : ℕ) (g : Globals) (p : Process) :
    Except Stop Globals :=
  match p.openNs .pid with
  | .error err =>
    .error (.exit ("open(/proc/" ++ String.ofList p.pid ++ "/ns/pid): " ++ err.text))
  | .ok namespaceFD => do
    let (g, _) ← addNamespace k fuel g namespaceFD (strconvAtoi p.pid)
    .ok g

/-- The namespaces in the order of the output, each with its level of indentation. -/
def displayNamespaceTree (g : Globals) :
    ℕ → NamespaceID → ℕ → Except Stop (List (NamespaceID × ℕ))
  | 0, _, _ => .error .outOfFuel
  | fuel + 1, nsid, level =>
    match g.NSList nsid with
    | none => .error .nilDereference
    | some a => do
      let trees ← a.children.mapM fun child => displayNamespaceTree g fuel child (level + 1)
      .ok ((nsid, level) :: trees.flatten)

/-! ## In step with `namespaces_of.go` -/

def attribsOf (a : NamespacesOf.NamespaceAttribs) : NamespaceAttribs := ⟨a.children, a.pids⟩

def globalsOf (nsi : NamespaceInfo) : Globals where
  NSList x := (nsi.nsList x).map attribsOf
  initialPidNS := nsi.rootNS

variable {k : Kernel} {opts : CmdLineOptions} {nsi : NamespaceInfo} {ns : NamespaceID} {fuel : ℕ}
  {pid : ℤ}

theorem globalsOf_insert (nsi : NamespaceInfo) (ns : NamespaceID)
    (a : NamespacesOf.NamespaceAttribs) :
    globalsOf (nsi.insert ns a) = (globalsOf nsi).insert ns (attribsOf a) := by
  refine Globals.ext (funext fun x => ?_) rfl
  by_cases hx : x = ns <;> simp [globalsOf, NamespaceInfo.insert, Globals.insert, hx]

theorem related_modify {f : NamespacesOf.NamespaceAttribs → NamespacesOf.NamespaceAttribs}
    {f' : NamespaceAttribs → NamespaceAttribs} (hf : ∀ a, f' (attribsOf a) = attribsOf (f a)) :
    Related (fun g nsi => g = globalsOf nsi) Eq ((globalsOf nsi).modify ns f')
      (nsi.modify ns f) := by
  cases h : nsi.nsList ns with
  | none => simp [Globals.modify, NamespaceInfo.modify, globalsOf, h, Related]
  | some a =>
    simp only [Globals.modify, NamespaceInfo.modify, globalsOf, h, Option.map_some, hf]
    exact (globalsOf_insert nsi ns (f a)).symm

theorem related_addNamespace (hp : opts.showPidnsHierarchy = true) (hns : Handled k opts ns) :
    Related (fun r' r => r' = (globalsOf r.1, r.2)) Eq (addNamespace k fuel (globalsOf nsi) ns pid)
      (NamespacesOf.addNamespace k opts (2 * fuel) nsi ns pid) := by
  have hop : opts.ioctlOp = .NS_GET_PARENT := if_pos hp
  induction fuel generalizing nsi ns pid with
  | zero => rfl
  | succ fuel ih =>
    have hnone : ((globalsOf nsi).NSList ns).isNone = (nsi.nsList ns).isNone := by
      simp [globalsOf]
    rw [Nat.mul_succ, addNamespace, NamespacesOf.addNamespace, hnone]
    refine Related.bind (R := fun g nsi => g = globalsOf nsi) ?_ ?_
    · by_cases hnew : (nsi.nsList ns).isNone
      · have hinsert : ∀ t uid, (globalsOf nsi).insert ns {} =
            globalsOf (nsi.insert ns { nsType := t, creatorUID := uid }) :=
          fun t uid => (globalsOf_insert nsi ns { nsType := t, creatorUID := uid }).symm
        simp only [hnew, if_true, addNamespaceToList, hop ▸ hns.ioctl, hop,
          hinsert (k.nsType ns) (if k.nsType ns = .user then k.ownerUID ns else 0)]
        cases hv : visibleParent k opts ns with
        | none =>
          simp only [Option.elim_none, or_true, if_true]
          rfl
        | some q =>
          refine (ih (hns.visibleParent hv)).bind ?_
          rintro _ ⟨nsi', q'⟩ rfl
          exact related_modify fun _ => rfl
      · simp only [hnew]
        rfl
    · rintro _ nsi' rfl
      by_cases hpid : pid > 0
      · simp only [hpid, if_true]
        exact (related_modify fun _ => rfl).bind fun _ _ h => h ▸ rfl
      · simp only [hpid, if_false]
        rfl

/-- The call of `namespaces_of.go` for the same process. -/
def callOf (isCmdLineArg : Bool) (p : Process) : Call := ⟨p.pid, .pid, p.openNs .pid, isCmdLineArg⟩

theorem calls_pidns (isCmdLineArg : Bool) (procs : List Process) :
    calls (defaultOptions true) isCmdLineArg procs = procs.map (callOf isCmdLineArg) := by
  induction procs with
  | nil => rfl
  | cons p procs ih =>
    rw [List.map_cons, ← ih]
    rfl

theorem related_addProcessNamespace {isCmdLineArg : Bool} {p : Process}
    (hp : opts.showPidnsHierarchy = true) (hopen : p.openNs .pid = .ok ns)
    (hns : Handled k opts ns) :
    Related (fun g nsi => g = globalsOf nsi) Eq (addProcessNamespace k fuel (globalsOf nsi) p)
      (NamespacesOf.addProcessNamespace k opts (2 * fuel) nsi (callOf isCmdLineArg p)) := by
  simp only [addProcessNamespace, NamespacesOf.addProcessNamespace, callOf, hopen]
  refine (related_addNamespace hp hns).bind ?_
  rintro _ r rfl
  rfl

theorem displayNamespaceTree_globalsOf (h : ∀ t, opts.shows t = true) (nsi : NamespaceInfo)
    (fuel : ℕ) (ns : NamespaceID) (level : ℕ) :
    displayNamespaceTree (globalsOf nsi) fuel ns level =
      NamespacesOf.displayNamespaceTree opts nsi fuel ns level := by
  induction fuel generalizing ns level with
  | zero => rfl
  | succ fuel ih =>
    cases ha : nsi.nsList ns with
    | none => simp [displayNamespaceTree, NamespacesOf.displayNamespaceTree, globalsOf, ha]
    | some a =>
      have hNSList : (globalsOf nsi).NSList ns = some (attribsOf a) := by simp [globalsOf, ha]
      simp only [displayNamespaceTree, NamespacesOf.displayNamespaceTree, ha, hNSList, attribsOf,
        ih, h, if_true]
      rfl

/-! ## The two hierarchies -/

section Hierarchies
variable {isCmdLineArg : Bool} {procs : List Process}

/-- `/proc/PID/ns/pid` can be opened, which gives a PID namespace. -/
def OpensPid (k : Kernel) (p : Process) : Prop :=
  ∃ ns, p.openNs .pid = .ok ns ∧ ns ∈ k.namespaces ∧ k.nsType ns = .pid

theorem returns_calls (isCmdLineArg : Bool) (hprocs : ∀ p ∈ procs, OpensPid k p) :
    ∀ c ∈ calls (defaultOptions true) isCmdLineArg procs, c.Returns k (defaultOptions true) := by
  intro c hc
  rw [calls_pidns] at hc
  obtain ⟨p, hp, rfl⟩ := List.mem_map.mp hc
  obtain ⟨ns, hopen, hns⟩ := hprocs p hp
  exact Call.returns_of_pid rfl hopen hns

theorem related_addProcesses (isCmdLineArg : Bool) (fuel : ℕ)
    (hprocs : ∀ p ∈ procs, OpensPid k p) :
    Related (fun g nsi => g = globalsOf nsi) Eq
      (procs.foldlM (addProcessNamespace k fuel) .empty)
      (addProcesses k (defaultOptions true) (2 * fuel) isCmdLineArg procs) := by
  rw [addProcesses, calls_pidns, List.foldlM_map]
  refine Related.foldlM ?_ rfl
  rintro _ nsi p hp rfl
  obtain ⟨ns, hopen, hns, hpid⟩ := hprocs p hp
  exact related_addProcessNamespace rfl hopen ⟨hns, fun _ => hpid⟩

theorem invisUserNS_notMem_scan {calls : List Call} (hp : opts.showPidnsHierarchy = true)
    (hcalls : ∀ c ∈ calls, c.Returns k opts) : invisUserNS ∉ (scan k opts calls).found.order := by
  intro h
  obtain h | ⟨-, a, -, hi, -⟩ := mem_scan_iff_recorded.mp h
  · exact k.invisUserNS_notMem (h.handled hcalls).mem
  · simp [hp] at hi

theorem rootNS_mem_scan {calls : List Call} (hp : opts.showPidnsHierarchy = true)
    (hcalls : ∀ c ∈ calls, c.Returns k opts) (h : ns ∈ (scan k opts calls).found.order) :
    ((scan k opts calls).info []).rootNS ∈ (scan k opts calls).found.order := by
  obtain ⟨-, hnone⟩ | ⟨hroot, -⟩ := rootNS_cases (scan k opts calls)
  · obtain ⟨r, hr, hup⟩ := (forest k opts).exists_top ns
    have hmem := (scan k opts calls).found.mem_of_below h hr
    obtain rfl | ⟨-, htop⟩ := topmost_of_mem_scan hcalls hmem hup
    · exact absurd hmem (invisUserNS_notMem_scan hp hcalls)
    · exact absurd htop (hnone r hmem)
  · exact hroot

theorem pid_namespaces_same_hierarchy (hprocs : ∀ p ∈ procs, OpensPid k p) :
    ∃ nsi g, (∀ fuel, 2 * (k.namespaces.card + 1) ≤ fuel →
        addProcesses k (defaultOptions true) fuel isCmdLineArg procs = .ok nsi) ∧
      (∀ fuel, k.namespaces.card + 1 ≤ fuel →
        procs.foldlM (addProcessNamespace k fuel) .empty = .ok g) ∧
      (∀ x, g.NSList x = (nsi.nsList x).map fun a => ⟨a.children, a.pids⟩) ∧
      g.initialPidNS = nsi.rootNS ∧ nsi.nsList invisUserNS = none ∧
      (∀ fuel level, displayNamespaceTree g fuel g.initialPidNS level =
        NamespacesOf.displayNamespaceTree (defaultOptions true) nsi fuel nsi.rootNS level) ∧
      (procs ≠ [] → ∃ out, ∃ N, ∀ fuel, N ≤ fuel →
        displayNamespaceTree g fuel g.initialPidNS 0 = .ok out) := by
  have hcalls := returns_calls isCmdLineArg hprocs
  set s := scan k (defaultOptions true) (calls (defaultOptions true) isCmdLineArg procs)
  have hadd : ∀ fuel, 2 * (k.namespaces.card + 1) ≤ fuel →
      addProcesses k (defaultOptions true) fuel isCmdLineArg procs = .ok (s.info []) :=
    fun _ => foldlM_addProcessNamespace hcalls
  have hdisplay := displayNamespaceTree_globalsOf (defaultOptions_shows true) (s.info [])
  refine ⟨s.info [], globalsOf (s.info []), hadd, fun fuel hfuel => ?_, fun _ => rfl, rfl, ?_,
    fun fuel level => hdisplay fuel _ level, fun hne => ?_⟩
  · have hrel := related_addProcesses isCmdLineArg fuel hprocs
    rw [hadd _ (by omega)] at hrel
    obtain ⟨g, hg, rfl⟩ := hrel.of_ok
    exact hg
  · simpa [Scan.info] using invisUserNS_notMem_scan rfl hcalls
  · obtain ⟨p, hp⟩ := List.exists_mem_of_ne_nil procs hne
    obtain ⟨ns, hopen, -⟩ := hprocs p hp
    have hcall : callOf isCmdLineArg p ∈ calls (defaultOptions true) isCmdLineArg procs := by
      rw [calls_pidns]
      exact List.mem_map_of_mem hp
    have hroot := rootNS_mem_scan rfl hcalls (mem_scan.mpr ⟨_, hcall, ns, hopen, .refl ns⟩)
    exact ⟨_, _, fun fuel hfuel => (hdisplay fuel _ 0).trans (displayNamespaceTree_eq hroot hfuel)⟩

theorem pid_namespaces_same_hierarchy_nested :
    ∃ nsi g, (∀ fuel, 2 * (nestedKernel.namespaces.card + 1) ≤ fuel →
        addProcesses nestedKernel (defaultOptions true) fuel false pidProcesses = .ok nsi) ∧
      (∀ fuel, nestedKernel.namespaces.card + 1 ≤ fuel →
        pidProcesses.foldlM (addProcessNamespace nestedKernel fuel) .empty = .ok g) ∧
      (∀ x, g.NSList x = (nsi.nsList x).map fun a => ⟨a.children, a.pids⟩) ∧
      g.initialPidNS = nsi.rootNS ∧ nsi.nsList invisUserNS = none ∧
      (∀ fuel level, displayNamespaceTree g fuel g.initialPidNS level =
        NamespacesOf.displayNamespaceTree (defaultOptions true) nsi fuel nsi.rootNS level) ∧
      (pidProcesses ≠ [] → ∃ out, ∃ N, ∀ fuel, N ≤ fuel →
        displayNamespaceTree g fuel g.initialPidNS 0 = .ok out) := by
  refine pid_namespaces_same_hierarchy fun p hp => ?_
  simp only [pidProcesses, pidProcess, List.mem_cons, List.not_mem_nil, or_false] at hp
  obtain rfl | rfl | rfl := hp <;> exact ⟨_, rfl, by decide⟩

end Hierarchies

end Tlpi.Namespaces.PidNamespaces
