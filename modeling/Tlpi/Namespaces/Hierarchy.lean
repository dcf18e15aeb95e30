import Mathlib.Tactic
import Tlpi.Lib.Outcome
import Tlpi.Namespaces.NamespacesOf

/-! What a scan of `namespaces_of.go` records. The namespaces form a forest once the invisible
owner is taken as the parent of the nonuser namespaces without a visible one. The map is a function
of the order in which the scan has met the nodes of this forest and of the PIDs it was given; the
recursive functions are shown to compute it, and its properties are read off the forest. -/

namespace Tlpi.Namespaces.NamespacesOf
open Lib Relation

variable {k : Kernel} {opts : CmdLineOptions} {ns q x : NamespaceID}

/-! ## The forest of namespaces -/

def visibleParent (k : Kernel) (opts : CmdLineOptions) (ns : NamespaceID) : Option NamespaceID :=
  if opts.showPidnsHierarchy then k.getParent ns else k.getUserns ns

/-- A nonuser namespace without a visible owner, in the user namespace hierarchy. -/
def InvisiblyOwned (k : Kernel) (opts : CmdLineOptions) (ns : NamespaceID) : Prop :=
  opts.showPidnsHierarchy = false ∧ ns ∈ k.namespaces ∧ k.nsType ns ≠ .user ∧
    visibleParent k opts ns = none

/-- A user namespace (with `--pidns`, a PID namespace) without a visible parent. -/
def Topmost (k : Kernel) (opts : CmdLineOptions) (ns : NamespaceID) : Prop :=
  ns ∈ k.namespaces ∧ k.nsType ns = (if opts.showPidnsHierarchy then .pid else .user) ∧
    visibleParent k opts ns = none

instance : DecidablePred (InvisiblyOwned k opts) :=
  fun _ => inferInstanceAs (Decidable (_ ∧ _ ∧ _ ∧ _))

instance : DecidablePred (Topmost k opts) :=
  fun _ => inferInstanceAs (Decidable (_ ∧ _ ∧ _))

def parentOf (k : Kernel) (opts : CmdLineOptions) (ns : NamespaceID) : Option NamespaceID :=
  match visibleParent k opts ns with
  | some q => some q
  | none => if InvisiblyOwned k opts ns then some invisUserNS else none

theorem parentOf_of_visible (h : visibleParent k opts ns = some q) :
    parentOf k opts ns = some q := by
  simp [parentOf, h]

theorem parentOf_of_invisible (h : InvisiblyOwned k opts ns) :
    parentOf k opts ns = some invisUserNS := by
  simp [parentOf, h.2.2.2, h]

theorem parentOf_eq_some : parentOf k opts ns = some q ↔
    visibleParent k opts ns = some q ∨ InvisiblyOwned k opts ns ∧ q = invisUserNS := by
  constructor
  · intro h
    cases hv : visibleParent k opts ns with
    | some p => exact .inl (by simpa [parentOf, hv] using h)
    | none =>
      by_cases hi : InvisiblyOwned k opts ns
      · exact .inr ⟨hi, by simpa [parentOf, hv, hi, eq_comm] using h⟩
      · simp [parentOf, hv, hi] at h
  · rintro (h | ⟨h, rfl⟩)
    · exact parentOf_of_visible h
    · exact parentOf_of_invisible h

theorem visibleParent_mem (h : visibleParent k opts ns = some q) :
    ns ∈ k.namespaces ∧ q ∈ k.namespaces := by
  unfold visibleParent at h
  split at h
  · exact ⟨(k.getParent_mem ns q h).1, (k.getParent_mem ns q h).2.1⟩
  · exact ⟨(k.getUserns_mem ns q h).1, (k.getUserns_mem ns q h).2.1⟩

theorem visibleParent_acyclic (ns : NamespaceID) :
    ¬ TransGen (fun a b => visibleParent k opts a = some b) ns ns := by
  unfold visibleParent
  split
  · exact k.getParent_acyclic ns
  · exact k.getUserns_acyclic ns

theorem ne_invisUserNS (h : ns ∈ k.namespaces) : ns ≠ invisUserNS := by
  rintro rfl
  exact k.invisUserNS_notMem h

theorem parentOf_invisUserNS : parentOf k opts invisUserNS = none := by
  refine Option.eq_none_iff_forall_ne_some.mpr fun q h => ?_
  obtain h | ⟨h, -⟩ := parentOf_eq_some.mp h
  · exact k.invisUserNS_notMem (visibleParent_mem h).1
  · exact k.invisUserNS_notMem h.2.1

theorem reflTransGen_parentOf_iff :
    ReflTransGen (fun a b => parentOf k opts a = some b) ns x ↔
      ReflTransGen (fun a b => visibleParent k opts a = some b) ns x ∨
        x = invisUserNS ∧ ∃ a, ReflTransGen (fun a b => visibleParent k opts a = some b) ns a ∧
          InvisiblyOwned k opts a := by
  constructor
  · intro h
    induction h with
    | refl => exact .inl .refl
    | tail _ hup ih =>
      obtain ih | ⟨rfl, -⟩ := ih
      · obtain hup | ⟨ho, rfl⟩ := parentOf_eq_some.mp hup
        · exact .inl (ih.tail hup)
        · exact .inr ⟨rfl, _, ih, ho⟩
      · rw [parentOf_invisUserNS] at hup
        cases hup
  · have hmono : ∀ a, ReflTransGen (fun a b => visibleParent k opts a = some b) ns a →
        ReflTransGen (fun a b => parentOf k opts a = some b) ns a :=
      ReflTransGen.mono (fun _ _ => parentOf_of_visible) ns
    rintro (h | ⟨rfl, a, h, ha⟩)
    · exact hmono x h
    · exact (hmono a h).tail (parentOf_of_invisible ha)

def forest (k : Kernel) (opts : CmdLineOptions) : Forest NamespaceID where
  up := parentOf k opts
  acyclic ns h := by
    obtain ⟨q, hq, h⟩ := TransGen.head'_iff.mp h
    obtain h | ⟨rfl, -⟩ := reflTransGen_parentOf_iff.mp h
    · obtain hq | ⟨-, rfl⟩ := parentOf_eq_some.mp hq
      · exact visibleParent_acyclic ns (TransGen.head' hq h)
      · obtain rfl | ⟨a, ha, -⟩ := ReflTransGen.cases_head h
        · rw [parentOf_invisUserNS] at hq
          cases hq
        · exact k.invisUserNS_notMem (visibleParent_mem ha).1
    · rw [parentOf_invisUserNS] at hq
      cases hq

/-- What the scan comes across; with `--pidns` it opens only files of PID namespaces. -/
structure Handled (k : Kernel) (opts : CmdLineOptions) (ns : NamespaceID) : Prop where
  mem : ns ∈ k.namespaces
  pid : opts.showPidnsHierarchy = true → k.nsType ns = .pid

theorem Handled.visibleParent (h : Handled k opts ns) (hq : visibleParent k opts ns = some q) :
    Handled k opts q where
  mem := (visibleParent_mem hq).2
  pid hp := by
    rw [NamespacesOf.visibleParent, if_pos hp] at hq
    rw [(k.getParent_mem ns q hq).2.2, h.pid hp]

theorem Handled.ioctl (h : Handled k opts ns) : k.ioctl ns opts.ioctlOp =
    (NamespacesOf.visibleParent k opts ns).elim (.error .EPERM) .ok := by
  unfold NamespacesOf.visibleParent CmdLineOptions.ioctlOp
  cases hp : opts.showPidnsHierarchy with
  | false => cases hq : k.getUserns ns <;> simp [Kernel.ioctl, hq]
  | true => cases hq : k.getParent ns <;> simp [Kernel.ioctl, hq, h.pid hp]

theorem Handled.cases (h : Handled k opts ns) :
    (∃ q, NamespacesOf.visibleParent k opts ns = some q) ∨ InvisiblyOwned k opts ns ∨
      Topmost k opts ns := by
  cases hv : NamespacesOf.visibleParent k opts ns with
  | some q => exact .inl ⟨q, rfl⟩
  | none =>
    right
    cases hp : opts.showPidnsHierarchy with
    | true => exact .inr ⟨h.mem, by rw [h.pid hp, if_pos hp], hv⟩
    | false =>
      by_cases hu : k.nsType ns = .user
      · exact .inr ⟨h.mem, by rw [hu, hp]; rfl, hv⟩
      · exact .inl ⟨hp, h.mem, hu, hv⟩

theorem Topmost.not_invisiblyOwned (h : Topmost k opts ns) : ¬ InvisiblyOwned k opts ns := by
  rintro ⟨hp, -, hu, -⟩
  exact hu (by simpa [hp] using h.2.1)

theorem Topmost.parentOf (h : Topmost k opts ns) : parentOf k opts ns = none := by
  simp [NamespacesOf.parentOf, h.2.2, h.not_invisiblyOwned]

/-! ## What is recorded after a part of the scan -/

/-- The namespaces met so far and the PIDs that came with them. -/
structure Scan (k : Kernel) (opts : CmdLineOptions) where
  found : (forest k opts).Discovery
  log : List (NamespaceID × ℤ)
  logged : ∀ e ∈ log, e.1 ∈ found.order

def members (log : List (NamespaceID × ℤ)) (x : NamespaceID) : List ℤ :=
  log.filterMap fun e => if e.1 = x ∧ e.2 > 0 then some e.2 else none

namespace Scan
variable {s : Scan k opts} {pending : List NamespaceID}

def start : Scan k opts := ⟨.empty, [], by simp⟩

def visit (s : Scan k opts) (ns : NamespaceID) : Scan k opts where
  found := s.found.visit ns
  log := s.log
  logged e he := Forest.Discovery.mem_visit.mpr (.inl (s.logged e he))

def add (s : Scan k opts) (ns : NamespaceID) (pid : ℤ) : Scan k opts where
  found := s.found.visit ns
  log := s.log ++ [(ns, pid)]
  logged e he := by
    rw [Forest.Discovery.mem_visit]
    obtain he | he := List.mem_append.mp he
    · exact .inl (s.logged e he)
    · rw [List.mem_singleton.mp he]
      exact .inr (.refl ns)

def attribs (s : Scan k opts) (x : NamespaceID) : NamespaceAttribs where
  nsType := if x = invisUserNS then .user else k.nsType x
  pids := members s.log x
  children := s.found.children x
  creatorUID := if x ≠ invisUserNS ∧ k.nsType x = .user then k.ownerUID x else 0

/-- The map while the entries of `pending` are not yet in the list of children of a parent. -/
def info (s : Scan k opts) (pending : List NamespaceID) : NamespaceInfo where
  nsList x := if x ∈ pending ∨ x ∈ s.found.order then some (s.attribs x) else none
  rootNS := (s.found.order.filter (Topmost k opts)).getLast?.getD invisUserNS

theorem mem_visit_self (s : Scan k opts) (ns : NamespaceID) : ns ∈ (s.visit ns).found.order :=
  Forest.Discovery.mem_visit.mpr (.inr (.refl ns))

theorem visit_of_mem (hns : ns ∈ s.found.order) : s.visit ns = s := by
  simp only [visit, Forest.Discovery.visit_of_mem hns]

theorem attribs_fresh (hns : ns ∉ s.found.order) : s.attribs ns =
    { nsType := if ns = invisUserNS then .user else k.nsType ns
      creatorUID := if ns ≠ invisUserNS ∧ k.nsType ns = .user then k.ownerUID ns else 0 } := by
  have hpids : members s.log ns = [] := by
    refine List.filterMap_eq_nil_iff.mpr fun e he => if_neg fun h => hns ?_
    exact h.1 ▸ s.logged e he
  simp [attribs, hpids, Forest.Discovery.children_eq_nil hns]

theorem insert_info (s : Scan k opts) (pending : List NamespaceID) (ns : NamespaceID) :
    (s.info pending).insert ns (s.attribs ns) = s.info (ns :: pending) := by
  refine NamespaceInfo.ext (funext fun x => ?_) rfl
  by_cases hx : x = ns <;> simp [NamespaceInfo.insert, info, hx]

/-- A change of one entry leads from the map of a scan to the map of another one. -/
theorem modify_info {f : NamespaceAttribs → NamespaceAttribs} {t : Scan k opts}
    {pending' : List NamespaceID} (hq : q ∈ s.found.order)
    (hkeys : ∀ x, x ∈ pending' ∨ x ∈ t.found.order ↔ x ∈ pending ∨ x ∈ s.found.order)
    (hq' : t.attribs q = f (s.attribs q)) (hframe : ∀ x, x ≠ q → t.attribs x = s.attribs x)
    (hroot : (t.info pending').rootNS = (s.info pending).rootNS) :
    (s.info pending).modify q f = .ok (t.info pending') := by
  have hentry : (s.info pending).nsList q = some (s.attribs q) := if_pos (.inr hq)
  simp only [NamespaceInfo.modify, hentry]
  refine congrArg Except.ok (NamespaceInfo.ext (funext fun x => ?_) hroot.symm)
  have hx : (t.info pending').nsList x =
      if x ∈ pending ∨ x ∈ s.found.order then some (t.attribs x) else none :=
    if_congr (hkeys x) rfl rfl
  rw [hx]
  by_cases hxq : x = q
  · simp [NamespaceInfo.insert, hxq, hq, hq']
  · simp [NamespaceInfo.insert, hxq, info, hframe x hxq]

theorem attribs_visit_of_top (hns : ns ∉ s.found.order) (hup : parentOf k opts ns = none) :
    (s.visit ns).attribs = s.attribs := by
  funext x
  have hchildren : (s.found.visit ns).children x = s.found.children x :=
    Forest.Discovery.children_visit_of_top hns hup x
  simp only [attribs, visit, hchildren]

theorem attribs_visit_of_up (hns : ns ∉ s.found.order) (hup : parentOf k opts ns = some q)
    (x : NamespaceID) : (s.visit ns).attribs x = { (s.visit q).attribs x with
      children := ((s.visit q).attribs x).children ++ if x = q then [ns] else [] } := by
  have hchildren : (s.found.visit ns).children x =
      (s.found.visit q).children x ++ if x = q then [ns] else [] :=
    Forest.Discovery.children_visit_of_up hns hup x
  simp only [attribs, visit, hchildren]

theorem addChild_info (hns : ns ∉ s.found.order) (hup : parentOf k opts ns = some q) :
    ((s.visit q).info (ns :: pending)).addChild q ns = .ok ((s.visit ns).info pending) := by
  have horder : (s.visit ns).found.order = (s.visit q).found.order ++ [ns] :=
    Forest.Discovery.order_visit_of_up hns hup
  have htop : ¬ Topmost k opts ns := fun h => by simp [h.parentOf] at hup
  refine modify_info (s.mem_visit_self q) (fun x => ?_) ?_ (fun x hx => ?_) ?_
  · simp only [horder, List.mem_append, List.mem_cons]
    tauto
  · simp [attribs_visit_of_up hns hup]
  · simp [attribs_visit_of_up hns hup, hx]
  · simp [info, horder, htop]

/-- To link a topmost node is to end the waiting of its entry. -/
theorem info_visit_of_top (hns : ns ∉ s.found.order) (hup : parentOf k opts ns = none) :
    (s.visit ns).info pending = { s.info (ns :: pending) with
      rootNS := if Topmost k opts ns then ns else (s.info pending).rootNS } := by
  have horder : (s.visit ns).found.order = s.found.order ++ [ns] :=
    Forest.Discovery.order_visit_of_top hns hup
  refine NamespaceInfo.ext (funext fun x => ?_) ?_
  · simp only [info, horder, attribs_visit_of_top hns hup, List.mem_append, List.mem_cons]
    exact if_congr (by tauto) rfl rfl
  · by_cases htop : Topmost k opts ns <;> simp [info, horder, htop]

theorem insert_invisUserNS_info (hpending : invisUserNS ∉ pending) :
    (if ((s.info pending).nsList invisUserNS).isNone then
        (s.info pending).insert invisUserNS { nsType := .user }
      else s.info pending) = (s.visit invisUserNS).info pending := by
  by_cases hmem : invisUserNS ∈ s.found.order
  · simp [visit_of_mem hmem, info, hmem]
  · have hattr : s.attribs invisUserNS = { nsType := .user } := by simp [attribs_fresh hmem]
    have htop : ¬ Topmost k opts invisUserNS := fun h => k.invisUserNS_notMem h.1
    rw [if_pos (by simp [info, hpending, hmem]), ← hattr, insert_info,
      info_visit_of_top hmem parentOf_invisUserNS, if_neg htop]
    rfl

theorem addPid_info {pid : ℤ} (hpid : pid > 0) :
    ((s.visit ns).info pending).addPid ns pid = .ok ((s.add ns pid).info pending) := by
  refine modify_info (s.mem_visit_self ns) (fun x => Iff.rfl) ?_ (fun x hx => ?_) rfl
  · simp [attribs, add, visit, members, hpid]
  · simp [attribs, add, visit, members, Ne.symm hx]

theorem info_add_of_nonpos {pid : ℤ} (hpid : ¬ pid > 0) :
    (s.add ns pid).info pending = (s.visit ns).info pending := by
  simp only [gt_iff_lt, not_lt] at hpid
  simp [info, attribs, add, visit, members, hpid]

end Scan

/-! ## The recursive functions -/

section Recursion
variable {s : Scan k opts} {pending : List NamespaceID} {fuel : ℕ} {pid : ℤ}

/-- The entries that wait for the recursive call on `ns` are those of descendants of `ns`. -/
def Descendants (k : Kernel) (opts : CmdLineOptions) (pending : List NamespaceID)
    (ns : NamespaceID) : Prop :=
  ∀ x ∈ pending, ∃ q, parentOf k opts x = some q ∧ (forest k opts).Below q ns

theorem Descendants.notMem (h : Descendants k opts pending ns) : ns ∉ pending := by
  intro hns
  obtain ⟨q, hup, hq⟩ := h ns hns
  exact Forest.not_below_of_up (F := forest k opts) hup hq

theorem Descendants.cons (h : Descendants k opts pending ns) (hup : parentOf k opts ns = some q) :
    Descendants k opts (ns :: pending) q := by
  intro x hx
  obtain rfl | hx := List.mem_cons.mp hx
  · exact ⟨q, hup, .refl q⟩
  · obtain ⟨p, hp, hpns⟩ := h x hx
    exact ⟨p, hp, hpns.trans (Forest.below_of_up hup)⟩

theorem addNamespace_of_addNamespaceToList (hpending : Descendants k opts pending ns)
    (hadd : ns ∉ s.found.order →
      addNamespaceToList k opts fuel (s.info pending) ns = .ok ((s.visit ns).info pending)) :
    addNamespace k opts (fuel + 1) (s.info pending) ns pid =
      .ok ((s.add ns pid).info pending, ns) := by
  have hvisit : (if ((s.info pending).nsList ns).isNone then
      addNamespaceToList k opts fuel (s.info pending) ns else .ok (s.info pending)) =
        .ok ((s.visit ns).info pending) := by
    by_cases hns : ns ∈ s.found.order
    · simp [Scan.visit_of_mem hns, Scan.info, hns]
    · rw [← hadd hns]
      simp [Scan.info, hns, hpending.notMem]
  rw [addNamespace, hvisit, ok_bind]
  by_cases hpid : pid > 0
  · rw [if_pos hpid, Scan.addPid_info hpid, ok_bind]
  · rw [if_neg hpid, ok_bind, Scan.info_add_of_nonpos hpid]

theorem addNamespaceToList_info {n : ℕ} (hns : Handled k opts ns)
    (hfuel : (forest k opts).height ns ≤ n ∧ 2 * n ≤ fuel + 1) (hnew : ns ∉ s.found.order)
    (hpending : Descendants k opts pending ns) :
    addNamespaceToList k opts fuel (s.info pending) ns = .ok ((s.visit ns).info pending) := by
  -- on the height: the recursive call is for the parent, while the entry of `ns` is pending
  induction n generalizing ns fuel pending with
  | zero => exact absurd ((forest k opts).height_pos ns) (by omega)
  | succ n ih =>
    obtain ⟨fuel, rfl⟩ : ∃ f, fuel = f + 1 := ⟨fuel - 1, by omega⟩
    have hinsert := s.insert_info pending ns
    simp only [Scan.attribs_fresh hnew, ne_invisUserNS hns.mem, if_false, ne_eq, not_false_eq_true,
      true_and] at hinsert
    simp only [addNamespaceToList, hinsert, hns.ioctl]
    obtain ⟨q, hv⟩ | hi | ht := hns.cases
    · have hup : parentOf k opts ns = some q := parentOf_of_visible hv
      have hheight : (forest k opts).height ns = (forest k opts).height q + 1 :=
        Forest.height_of_up hup
      have hpos := (forest k opts).height_pos q
      obtain ⟨fuel, rfl⟩ : ∃ f, fuel = f + 1 := ⟨fuel - 1, by omega⟩
      have hparent : addNamespace k opts (fuel + 1) (s.info (ns :: pending)) q (-1) =
          .ok ((s.visit q).info (ns :: pending), q) := by
        rw [addNamespace_of_addNamespaceToList (hpending.cons hup),
          Scan.info_add_of_nonpos (by simp)]
        exact fun hq => ih (hns.visibleParent hv) (by omega) hq (hpending.cons hup)
      simp only [hv, Option.elim_some, hparent, ok_bind]
      exact Scan.addChild_info hnew hup
    · have hup : parentOf k opts ns = some invisUserNS := parentOf_of_invisible hi
      have hop : opts.ioctlOp ≠ .NS_GET_PARENT := by simp [CmdLineOptions.ioctlOp, hi.1]
      simp only [hi.2.2.2, Option.elim_none, hi.2.2.1, hop, or_self, if_false]
      rw [Scan.insert_invisUserNS_info (hpending.cons hup).notMem]
      exact Scan.addChild_info hnew hup
    · have hroot : k.nsType ns = .user ∨ opts.ioctlOp = .NS_GET_PARENT := by
        cases hp : opts.showPidnsHierarchy with
        | true => exact .inr (if_pos hp)
        | false => exact .inl (by simpa [hp] using ht.2.1)
      simp only [ht.2.2, Option.elim_none, hroot, if_true,
        Scan.info_visit_of_top hnew ht.parentOf, ht]

theorem mem_of_visible (hns : ns ∈ k.namespaces)
    (h : ReflTransGen (fun a b => visibleParent k opts a = some b) ns x) : x ∈ k.namespaces := by
  induction h with
  | refl => exact hns
  | tail _ hup _ => exact (visibleParent_mem hup).2

theorem height_le (hns : ns ∈ k.namespaces) :
    (forest k opts).height ns ≤ k.namespaces.card + 1 := by
  rw [← Finset.card_insert_of_notMem k.invisUserNS_notMem]
  refine Forest.height_le_card fun x hx => Finset.mem_insert.mpr ?_
  obtain hx | ⟨rfl, -⟩ := reflTransGen_parentOf_iff.mp hx
  · exact .inr (mem_of_visible hns hx)
  · exact .inl rfl

theorem addNamespace_info (hns : Handled k opts ns) (hfuel : 2 * (k.namespaces.card + 1) ≤ fuel) :
    addNamespace k opts fuel (s.info []) ns pid = .ok ((s.add ns pid).info [], ns) := by
  obtain ⟨fuel, rfl⟩ : ∃ f, fuel = f + 1 := ⟨fuel - 1, by omega⟩
  have hpending : Descendants k opts [] ns := by simp [Descendants]
  refine addNamespace_of_addNamespaceToList hpending fun hnew => ?_
  exact addNamespaceToList_info hns ⟨height_le hns.mem, hfuel⟩ hnew hpending

end Recursion

/-! ## Whole scans -/

/-- The file is one that `main()` has opened, which gives a namespace of its type; or the process
has terminated in the meantime. -/
structure Call.Returns (k : Kernel) (opts : CmdLineOptions) (c : Call) : Prop where
  file : c.nsFile ∈ nsSymlinks opts
  opened : ∀ ns, c.namespaceFD = .ok ns → ns ∈ k.namespaces ∧ k.nsType ns = c.nsFile
  failed : ∀ err, c.namespaceFD = .error err → err ≠ .EACCES ∧ c.isCmdLineArg = false

theorem Call.Returns.handled {c : Call} (h : c.Returns k opts) (hns : c.namespaceFD = .ok ns) :
    Handled k opts ns where
  mem := (h.opened ns hns).1
  pid hp := by
    rw [(h.opened ns hns).2]
    simpa [nsSymlinks, hp] using h.file

theorem Call.returns_of_pid {c : Call} (hfile : c.nsFile = .pid) (hfd : c.namespaceFD = .ok ns)
    (hns : ns ∈ k.namespaces ∧ k.nsType ns = .pid) : c.Returns k opts where
  file := by
    rw [hfile, nsSymlinks]
    split <;> decide
  opened x hx := by
    obtain rfl : ns = x := Except.ok.inj (hfd.symm.trans hx)
    exact hfile ▸ hns
  failed err herr := by simp [hfd] at herr

def Scan.call (s : Scan k opts) (c : Call) : Scan k opts :=
  match c.namespaceFD with
  | .ok ns => s.add ns (strconvAtoi c.pid)
  | .error _ => s

def scan (k : Kernel) (opts : CmdLineOptions) (calls : List Call) : Scan k opts :=
  calls.foldl Scan.call .start

theorem scan_append_singleton (calls : List Call) (c : Call) :
    scan k opts (calls ++ [c]) = (scan k opts calls).call c := by
  simp [scan]

theorem addProcessNamespace_info {s : Scan k opts} {c : Call} {fuel : ℕ} (h : c.Returns k opts)
    (hfuel : 2 * (k.namespaces.card + 1) ≤ fuel) :
    addProcessNamespace k opts fuel (s.info []) c = .ok ((s.call c).info []) := by
  cases hfd : c.namespaceFD with
  | ok ns =>
    simp only [addProcessNamespace, Scan.call, hfd, addNamespace_info (h.handled hfd) hfuel,
      ok_bind]
  | error err =>
    obtain ⟨herr, harg⟩ := h.failed err hfd
    cases err <;> simp_all [addProcessNamespace, Scan.call]

theorem foldlM_addProcessNamespace {calls : List Call} {fuel : ℕ}
    (hcalls : ∀ c ∈ calls, c.Returns k opts) (hfuel : 2 * (k.namespaces.card + 1) ≤ fuel) :
    calls.foldlM (addProcessNamespace k opts fuel) .empty = .ok ((scan k opts calls).info []) := by
  induction calls using List.reverseRecOn with
  | nil => rfl
  | append_singleton calls c ih =>
    have hc := hcalls c (by simp)
    rw [List.foldlM_append, ih fun c hc => hcalls c (List.mem_append_left _ hc), ok_bind,
      List.foldlM_cons, addProcessNamespace_info hc hfuel, ok_bind, scan_append_singleton]
    rfl

/-- The namespaces that the calls open and their visible ancestors. -/
def Recorded (k : Kernel) (opts : CmdLineOptions) (calls : List Call) (x : NamespaceID) : Prop :=
  ∃ c ∈ calls, ∃ ns, c.namespaceFD = .ok ns ∧
    ReflTransGen (fun a b => visibleParent k opts a = some b) ns x

def memberPids (calls : List Call) (x : NamespaceID) : List ℤ :=
  calls.filterMap fun c =>
    if c.namespaceFD = .ok x ∧ strconvAtoi c.pid > 0 then some (strconvAtoi c.pid) else none

theorem mem_scan {calls : List Call} : x ∈ (scan k opts calls).found.order ↔
    ∃ c ∈ calls, ∃ ns, c.namespaceFD = .ok ns ∧ (forest k opts).Below ns x := by
  induction calls using List.reverseRecOn with
  | nil => simp [scan, Scan.start, Forest.Discovery.empty]
  | append_singleton calls c ih =>
    rw [scan_append_singleton]
    simp only [List.mem_append, List.mem_singleton, or_and_right, exists_or, exists_eq_left, ← ih]
    cases hfd : c.namespaceFD with
    | ok ns => simp [Scan.call, hfd, Scan.add, Forest.Discovery.mem_visit]
    | error err => simp [Scan.call, hfd]

theorem members_scan {calls : List Call} (x : NamespaceID) :
    members (scan k opts calls).log x = memberPids calls x := by
  induction calls using List.reverseRecOn with
  | nil => rfl
  | append_singleton calls c ih =>
    rw [scan_append_singleton, memberPids, List.filterMap_append, ← memberPids, ← ih]
    cases hfd : c.namespaceFD with
    | ok ns =>
      rw [Scan.call, hfd]
      simp only [Scan.add, members, List.filterMap_append]
      congr 1
      by_cases h : ns = x ∧ strconvAtoi c.pid > 0 <;> simp [hfd, h]
    | error err => simp [Scan.call, hfd]

theorem mem_scan_iff_recorded {calls : List Call} : x ∈ (scan k opts calls).found.order ↔
    Recorded k opts calls x ∨
      x = invisUserNS ∧ ∃ a, Recorded k opts calls a ∧ InvisiblyOwned k opts a := by
  rw [mem_scan]
  unfold Forest.Below Recorded
  simp only [forest, reflTransGen_parentOf_iff]
  constructor
  · rintro ⟨c, hc, ns, hfd, h | ⟨rfl, a, ha, hi⟩⟩
    · exact .inl ⟨c, hc, ns, hfd, h⟩
    · exact .inr ⟨rfl, a, ⟨c, hc, ns, hfd, ha⟩, hi⟩
  · rintro (⟨c, hc, ns, hfd, h⟩ | ⟨rfl, a, ⟨c, hc, ns, hfd, ha⟩, hi⟩)
    · exact ⟨c, hc, ns, hfd, .inl h⟩
    · exact ⟨c, hc, ns, hfd, .inr ⟨rfl, a, ha, hi⟩⟩

theorem count_children {calls : List Call} {a : NamespaceID} (ha : Recorded k opts calls a) :
    ((scan k opts calls).found.children x).count a =
      if parentOf k opts a = some x then 1 else 0 := by
  have hmem : a ∈ (scan k opts calls).found.children x ↔ parentOf k opts a = some x := by
    rw [Forest.Discovery.mem_children]
    exact and_iff_right (mem_scan_iff_recorded.mpr (.inl ha))
  rw [((scan k opts calls).found.nodup_children x).count]
  exact if_congr hmem rfl rfl

/-- The map holds the opened namespaces and their ancestors, each in the list of children of its
parent, and the PIDs of the processes. -/
structure BuildsForest (k : Kernel) (opts : CmdLineOptions) (calls : List Call)
    (nsi : NamespaceInfo) : Prop where
  keys : ∀ x, (nsi.nsList x).isSome ↔ Recorded k opts calls x ∨
    x = invisUserNS ∧ ∃ a, Recorded k opts calls a ∧ InvisiblyOwned k opts a
  child : ∀ a q, Recorded k opts calls a → visibleParent k opts a = some q →
    ∀ x e, nsi.nsList x = some e → e.children.count a = if x = q then 1 else 0
  invisible : ∀ a, Recorded k opts calls a → InvisiblyOwned k opts a →
    ∀ x e, nsi.nsList x = some e → e.children.count a = if x = invisUserNS then 1 else 0
  topmost : ∀ a, Recorded k opts calls a → Topmost k opts a →
    ∀ x e, nsi.nsList x = some e → a ∉ e.children
  recorded : ∀ x e, nsi.nsList x = some e → ∀ a ∈ e.children, Recorded k opts calls a
  pids : ∀ x e, nsi.nsList x = some e → e.pids = memberPids calls x

theorem info_eq_some {s : Scan k opts} {e : NamespaceAttribs}
    (h : (s.info []).nsList x = some e) : e = s.attribs x := by
  by_cases hx : x ∈ s.found.order <;> simp_all [Scan.info]

theorem buildsForest_scan (calls : List Call) :
    BuildsForest k opts calls ((scan k opts calls).info []) where
  keys x := by
    rw [← mem_scan_iff_recorded]
    simp [Scan.info]
  child a q ha hq x e he := by
    rw [info_eq_some he, Scan.attribs, count_children ha, parentOf_of_visible hq]
    simp [eq_comm]
  invisible a ha hi x e he := by
    rw [info_eq_some he, Scan.attribs, count_children ha, parentOf_of_invisible hi]
    simp [eq_comm]
  topmost a ha ht x e he := by
    rw [info_eq_some he, Scan.attribs, ← List.count_eq_zero, count_children ha, ht.parentOf]
    simp
  recorded x e he a ha := by
    rw [info_eq_some he] at ha
    obtain ⟨ha, hup⟩ := Forest.Discovery.mem_children.mp ha
    refine (mem_scan_iff_recorded.mp ha).resolve_right fun h => ?_
    obtain ⟨rfl, -⟩ := h
    simp [forest, parentOf_invisUserNS] at hup
  pids x e he := by
    rw [info_eq_some he]
    exact members_scan x

theorem namespaces_of_builds_forest {calls : List Call} (hcalls : ∀ c ∈ calls, c.Returns k opts) :
    ∃ nsi, (∀ fuel, 2 * (k.namespaces.card + 1) ≤ fuel →
        calls.foldlM (addProcessNamespace k opts fuel) .empty = .ok nsi) ∧
      BuildsForest k opts calls nsi :=
  ⟨(scan k opts calls).info [], fun _ => foldlM_addProcessNamespace hcalls,
    buildsForest_scan calls⟩

/-! A UTS namespace in a nested user namespace, an IPC namespace whose owner is not visible, and
PID namespaces of which two have no visible parent. -/

def nsId (inode : UInt64) : NamespaceID := ⟨4, inode⟩

def nestedKernel : Kernel where
  namespaces := {nsId 1, nsId 2, nsId 3, nsId 4, nsId 5, nsId 6, nsId 7}
  nsType ns :=
    if ns = nsId 1 ∨ ns = nsId 2 then .user
    else if ns = nsId 3 then .uts
    else if ns = nsId 4 then .ipc
    else .pid
  ownerUID ns := if ns = nsId 2 then 1000 else 0
  getUserns ns :=
    if ns = nsId 2 ∨ ns = nsId 5 then some (nsId 1)
    else if ns = nsId 3 ∨ ns = nsId 6 ∨ ns = nsId 7 then some (nsId 2)
    else none
  getParent ns := if ns = nsId 2 then some (nsId 1) else if ns = nsId 7 then some (nsId 6) else none
  invisUserNS_notMem := by decide
  getUserns_mem ns q h := by
    split_ifs at h with h1 h2
    · obtain rfl | rfl := h1 <;> cases h <;> decide
    · obtain rfl | rfl | rfl := h2 <;> cases h <;> decide
  getParent_mem ns q h := by
    split_ifs at h with h1 h2
    · subst h1; cases h; decide
    · subst h2; cases h; decide
  getUserns_acyclic := by
    refine Forest.acyclic_of_lt (fun ns => ns.inode.toNat) fun ns q h => ?_
    split_ifs at h with h1 h2
    · obtain rfl | rfl := h1 <;> cases h <;> decide
    · obtain rfl | rfl | rfl := h2 <;> cases h <;> decide
  getParent_acyclic := by
    refine Forest.acyclic_of_lt (fun ns => ns.inode.toNat) fun ns q h => ?_
    split_ifs at h with h1 h2
    · subst h1; cases h; decide
    · subst h2; cases h; decide

def nestedCalls : List Call :=
  [⟨['7'], .uts, .ok (nsId 3), false⟩, ⟨['8'], .ipc, .ok (nsId 4), false⟩,
    ⟨['9'], .user, .error .ENOENT, false⟩, ⟨['7'], .user, .ok (nsId 2), false⟩,
    ⟨['8'], .uts, .ok (nsId 3), false⟩]

theorem returns_nestedCalls (namespaces : ℕ) :
    ∀ c ∈ nestedCalls, c.Returns nestedKernel ⟨false, namespaces⟩ := by
  intro c hc
  simp only [nestedCalls, List.mem_cons, List.not_mem_nil, or_false] at hc
  obtain rfl | rfl | rfl | rfl | rfl := hc <;> constructor <;>
    first | exact of_decide_eq_true rfl | (rintro _ ⟨⟩ <;> decide)

theorem namespaces_of_builds_forest_nested :
    ∃ nsi, (∀ fuel, 2 * (nestedKernel.namespaces.card + 1) ≤ fuel →
        nestedCalls.foldlM (addProcessNamespace nestedKernel (defaultOptions false) fuel) .empty =
          .ok nsi) ∧
      BuildsForest nestedKernel (defaultOptions false) nestedCalls nsi := by
  exact namespaces_of_builds_forest (returns_nestedCalls _)

end Tlpi.Namespaces.NamespacesOf
