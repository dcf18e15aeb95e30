import Mathlib.Tactic
import Tlpi.Lib.Outcome
import Tlpi.Namespaces.Hierarchy

/-! What `namespaces_of.go` displays of the namespaces it has recorded. The display starts at the
one namespace that `rootNS` remembers and at the entry of the invisible owner, so that the tree of
any other topmost namespace is left out. -/

namespace Tlpi.Namespaces.NamespacesOf
open Lib

variable {k : Kernel} {opts : CmdLineOptions} {s : Scan k opts} {ns x : NamespaceID} {fuel : ℕ}

/-! ## One tree -/

theorem nsList_info (hns : ns ∈ s.found.order) : (s.info []).nsList ns = some (s.attribs ns) :=
  if_pos (.inr hns)

/-- The subtree of `ns` without the namespaces that the options leave out, each one at the level of
its distance from `ns`. -/
noncomputable def Scan.tree (s : Scan k opts) (fuel : ℕ) (ns : NamespaceID) (level : ℕ) :
    List (NamespaceID × ℕ) :=
  ((Forest.preorder s.found.children fuel ns).filter fun x => opts.shows (s.attribs x).nsType).map
    fun x => (x, level + ((forest k opts).height x - (forest k opts).height ns))

theorem tree_child {a : NamespaceID} {level : ℕ} (ha : a ∈ s.found.children ns)
    (hfuel : s.found.order.length < fuel + 1 + (forest k opts).height ns) :
    s.tree fuel a (level + 1) =
      ((Forest.preorder s.found.children fuel a).filter fun x =>
        opts.shows (s.attribs x).nsType).map fun x =>
          (x, level + ((forest k opts).height x - (forest k opts).height ns)) := by
  obtain ⟨ha, hup⟩ := Forest.Discovery.mem_children.mp ha
  have hheight := Forest.height_of_up hup
  refine List.map_congr_left fun x hx => ?_
  have hbelow := (Forest.Discovery.mem_preorder ha (by omega)).mp (List.mem_of_mem_filter hx)
  have hle := hbelow.2.height_le
  rw [Prod.mk.injEq]
  exact ⟨rfl, by omega⟩

theorem tree_succ {level : ℕ}
    (hfuel : s.found.order.length < fuel + 1 + (forest k opts).height ns) :
    s.tree (fuel + 1) ns level = (if opts.shows (s.attribs ns).nsType then [(ns, level)] else []) ++
      (s.found.children ns).flatMap fun a => s.tree fuel a (level + 1) := by
  rw [List.flatMap_congr fun a ha => tree_child ha hfuel, ← List.map_flatMap, ← List.filter_flatMap]
  by_cases h : opts.shows (s.attribs ns).nsType <;> simp [Scan.tree, Forest.preorder, h]

theorem tree_eq {level : ℕ} (hns : ns ∈ s.found.order) (hfuel : s.found.order.length ≤ fuel) :
    s.tree fuel ns level = s.tree s.found.order.length ns level := by
  have hpos := (forest k opts).height_pos ns
  rw [Scan.tree, Forest.Discovery.preorder_eq_of_le hns (by omega) hfuel, Scan.tree]

theorem displayNamespaceTree_info {level : ℕ} (hns : ns ∈ s.found.order)
    (hfuel : s.found.order.length < fuel + (forest k opts).height ns) :
    displayNamespaceTree opts (s.info []) fuel ns level = .ok (s.tree fuel ns level) := by
  induction fuel generalizing ns level with
  | zero => exact absurd (Forest.Discovery.height_le_length hns) (by omega)
  | succ fuel ih =>
    have htrees : (s.attribs ns).children.mapM
        (fun a => displayNamespaceTree opts (s.info []) fuel a (level + 1)) =
          .ok ((s.attribs ns).children.map fun a => s.tree fuel a (level + 1)) := by
      refine mapM_ok fun a ha => ?_
      obtain ⟨ha, hup⟩ := Forest.Discovery.mem_children.mp ha
      exact ih ha (by have := Forest.height_of_up hup; omega)
    simp only [displayNamespaceTree, nsList_info hns, htrees, ok_bind]
    rw [tree_succ hfuel]
    rfl

/-- Enough fuel gives the subtree, at whatever level it is displayed. -/
theorem displayNamespaceTree_eq {level : ℕ} (hns : ns ∈ s.found.order)
    (hfuel : s.found.order.length ≤ fuel) :
    displayNamespaceTree opts (s.info []) fuel ns level =
      .ok (s.tree s.found.order.length ns level) := by
  have hpos := (forest k opts).height_pos ns
  rw [displayNamespaceTree_info hns (by omega), tree_eq hns hfuel]

/-! ## All trees that are displayed -/

/-- Where the display starts. -/
def Scan.roots (s : Scan k opts) : List NamespaceID :=
  (s.info []).rootNS :: if invisUserNS ∈ s.found.order then [invisUserNS] else []

theorem displayNamespaceHierarchies_info (hroot : (s.info []).rootNS ∈ s.found.order)
    (hfuel : s.found.order.length ≤ fuel) :
    displayNamespaceHierarchies opts fuel (s.info []) =
      .ok (s.roots.flatMap fun r => s.tree fuel r 0) := by
  have htree : ∀ r ∈ s.found.order,
      displayNamespaceTree opts (s.info []) fuel r 0 = .ok (s.tree fuel r 0) := fun r hr =>
    displayNamespaceTree_info hr (by have := (forest k opts).height_pos r; omega)
  rw [displayNamespaceHierarchies, htree _ hroot, ok_bind]
  by_cases hinvis : invisUserNS ∈ s.found.order
  · simp [nsList_info hinvis, htree _ hinvis, Scan.roots, hinvis]
  · simp [Scan.roots, Scan.info, hinvis]

theorem displayNamespaceHierarchies_nil (hroot : (s.info []).rootNS ∉ s.found.order) (fuel : ℕ) :
    displayNamespaceHierarchies opts (fuel + 1) (s.info []) = .error .nilDereference := by
  have hnone : (s.info []).nsList (s.info []).rootNS = none := by simpa [Scan.info] using hroot
  simp only [displayNamespaceHierarchies, displayNamespaceTree, hnone, error_bind]

/-- The display ends, and it shows each recorded namespace once. -/
def ShowsAll (opts : CmdLineOptions) (nsi : NamespaceInfo) : Prop :=
  ∃ out, (∃ N, ∀ fuel, N ≤ fuel → displayNamespaceHierarchies opts fuel nsi = .ok out) ∧
    ∀ x, (nsi.nsList x).isSome → (out.map Prod.fst).count x = 1

theorem defaultOptions_shows (pidns : Bool) (t : NsType) :
    (defaultOptions pidns).shows t = true := by
  cases pidns <;> cases t <;> decide

theorem map_fst_tree {pidns : Bool} (s : Scan k (defaultOptions pidns)) (fuel : ℕ)
    (ns : NamespaceID) (level : ℕ) :
    (s.tree fuel ns level).map Prod.fst = Forest.preorder s.found.children fuel ns := by
  simp [Scan.tree, defaultOptions_shows, Function.comp_def]

section Roots
variable {pidns : Bool} {s : Scan k (defaultOptions pidns)}

theorem showsAll_iff_count_roots
    (hroots : ∀ r ∈ s.roots, r ∈ s.found.order ∧ parentOf k (defaultOptions pidns) r = none) :
    ShowsAll (defaultOptions pidns) (s.info []) ↔
      ∀ r ∈ s.found.order, parentOf k (defaultOptions pidns) r = none → s.roots.count r = 1 := by
  set len := s.found.order.length with hlen
  have hroot : (s.info []).rootNS ∈ s.found.order := (hroots _ List.mem_cons_self).1
  have hrecorded : ∀ x, ((s.info []).nsList x).isSome ↔ x ∈ s.found.order := by simp [Scan.info]
  have hout : ∀ fuel, (s.roots.flatMap fun r => s.tree fuel r 0).map Prod.fst =
      s.roots.flatMap (Forest.preorder s.found.children fuel) := by
    intro fuel
    simp only [List.map_flatMap, map_fst_tree]
  constructor
  · rintro ⟨out, ⟨N, hN⟩, hcount⟩
    have hfuel : len ≤ max N len := le_max_right N len
    have heq := (hN _ (le_max_left N len)).symm.trans (displayNamespaceHierarchies_info hroot hfuel)
    obtain rfl := Except.ok.inj heq
    simp only [hout, hrecorded] at hcount
    exact (Forest.Discovery.count_flatMap_preorder_eq_one_iff hroots hfuel).mp hcount
  · intro hcount
    refine ⟨s.roots.flatMap fun r => s.tree len r 0, ⟨len, fun fuel hfuel => ?_⟩, ?_⟩
    · rw [displayNamespaceHierarchies_info hroot hfuel]
      exact congrArg Except.ok (List.flatMap_congr fun r hr => tree_eq (hroots r hr).1 hfuel)
    · simp only [hout, hrecorded]
      exact (Forest.Discovery.count_flatMap_preorder_eq_one_iff hroots le_rfl).mpr hcount

end Roots

theorem rootNS_cases (s : Scan k opts) :
    (s.info []).rootNS = invisUserNS ∧ (∀ a ∈ s.found.order, ¬ Topmost k opts a) ∨
      (s.info []).rootNS ∈ s.found.order ∧ Topmost k opts (s.info []).rootNS := by
  cases h : (s.found.order.filter (Topmost k opts)).getLast? with
  | none =>
    refine .inl ⟨by simp [Scan.info, h], ?_⟩
    simpa using List.filter_eq_nil_iff.mp (List.getLast?_eq_none_iff.mp h)
  | some a =>
    have ha : (s.info []).rootNS = a := by simp [Scan.info, h]
    rw [ha]
    exact .inr (by simpa using List.mem_of_getLast? h)

theorem Recorded.handled {calls : List Call} (hx : Recorded k opts calls x)
    (hcalls : ∀ c ∈ calls, c.Returns k opts) : Handled k opts x := by
  obtain ⟨c, hc, ns, hfd, h⟩ := hx
  induction h with
  | refl => exact (hcalls c hc).handled hfd
  | tail _ hup ih => exact ih.visibleParent hup

/-- A node without parent is a topmost namespace or the invisible owner. -/
theorem topmost_of_mem_scan {calls : List Call} (hcalls : ∀ c ∈ calls, c.Returns k opts)
    (hx : x ∈ (scan k opts calls).found.order) (hup : parentOf k opts x = none) :
    x = invisUserNS ∨ Recorded k opts calls x ∧ Topmost k opts x := by
  obtain hx | ⟨rfl, -⟩ := mem_scan_iff_recorded.mp hx
  · right
    obtain ⟨q, hq⟩ | hi | ht := (hx.handled hcalls).cases
    · rw [parentOf_of_visible hq] at hup
      cases hup
    · rw [parentOf_of_invisible hi] at hup
      cases hup
    · exact ⟨hx, ht⟩
  · exact .inl rfl

theorem mem_roots {r : NamespaceID} :
    r ∈ s.roots ↔ r = (s.info []).rootNS ∨ r = invisUserNS ∧ invisUserNS ∈ s.found.order := by
  by_cases h : invisUserNS ∈ s.found.order <;> simp [Scan.roots, h]

/-- The tree of the invisible owner is displayed twice, or there is no tree to display. -/
theorem not_showsAll_of_rootNS_eq {pidns : Bool} {s : Scan k (defaultOptions pidns)}
    (hroot : (s.info []).rootNS = invisUserNS) : ¬ ShowsAll (defaultOptions pidns) (s.info []) := by
  intro hall
  by_cases hinvis : invisUserNS ∈ s.found.order
  · have hroots : s.roots = [invisUserNS, invisUserNS] := by simp [Scan.roots, hroot, hinvis]
    have htop : ∀ r ∈ s.roots, r ∈ s.found.order ∧ parentOf k (defaultOptions pidns) r = none := by
      intro r hr
      rw [mem_roots, hroot] at hr
      obtain rfl : r = invisUserNS := hr.elim id And.left
      exact ⟨hinvis, parentOf_invisUserNS⟩
    have hcount := (showsAll_iff_count_roots htop).mp hall invisUserNS hinvis parentOf_invisUserNS
    simp [hroots] at hcount
  · obtain ⟨out, ⟨N, hN⟩, -⟩ := hall
    have herror := displayNamespaceHierarchies_nil (hroot ▸ hinvis) N
    rw [hN _ (Nat.le_succ N)] at herror
    cases herror

theorem showsAll_scan_iff {pidns : Bool} {calls : List Call}
    (hcalls : ∀ c ∈ calls, c.Returns k (defaultOptions pidns)) :
    ShowsAll (defaultOptions pidns) ((scan k (defaultOptions pidns) calls).info []) ↔
      ∃! a, Recorded k (defaultOptions pidns) calls a ∧ Topmost k (defaultOptions pidns) a := by
  set opts := defaultOptions pidns
  set s := scan k opts calls
  have hmem : ∀ a, Recorded k opts calls a → a ∈ s.found.order :=
    fun a ha => mem_scan_iff_recorded.mpr (.inl ha)
  obtain ⟨hroot, hnone⟩ | ⟨hroot, htop⟩ := rootNS_cases s
  · exact iff_of_false (not_showsAll_of_rootNS_eq hroot)
      fun ⟨a, ⟨ha, hat⟩, _⟩ => hnone a (hmem a ha) hat
  · have hne : (s.info []).rootNS ≠ invisUserNS := ne_invisUserNS htop.1
    have hrec : Recorded k opts calls (s.info []).rootNS :=
      (mem_scan_iff_recorded.mp hroot).resolve_right fun h => hne h.1
    rw [showsAll_iff_count_roots fun r hr => ?_]
    · constructor
      · intro hcount
        refine ⟨(s.info []).rootNS, ⟨hrec, htop⟩, fun b ⟨hb, hbt⟩ => ?_⟩
        have hbroot : b ∈ s.roots := by
          rw [← List.count_pos_iff, hcount b (hmem b hb) hbt.parentOf]
          exact Nat.one_pos
        exact (mem_roots.mp hbroot).resolve_right fun h => ne_invisUserNS hbt.1 h.1
      · intro hunique r hr hup
        obtain rfl | hrt := topmost_of_mem_scan hcalls hr hup
        · simp [Scan.roots, hr, hne]
        · obtain rfl := hunique.unique hrt ⟨hrec, htop⟩
          by_cases hinvis : invisUserNS ∈ s.found.order <;>
            simp [Scan.roots, hinvis, Ne.symm hne]
    · obtain rfl | ⟨rfl, hinvis⟩ := mem_roots.mp hr
      · exact ⟨hroot, htop.parentOf⟩
      · exact ⟨hinvis, parentOf_invisUserNS⟩

theorem namespaces_of_shows_all_iff {pidns isCmdLineArg : Bool} {procs : List Process}
    (hprocs : ∀ c ∈ calls (defaultOptions pidns) isCmdLineArg procs,
      c.Returns k (defaultOptions pidns)) :
    ∃ nsi, (∀ fuel, 2 * (k.namespaces.card + 1) ≤ fuel →
        addProcesses k (defaultOptions pidns) fuel isCmdLineArg procs = .ok nsi) ∧
      (ShowsAll (defaultOptions pidns) nsi ↔
        ∃! a, (nsi.nsList a).isSome ∧ Topmost k (defaultOptions pidns) a) := by
  refine ⟨_, fun fuel hfuel => foldlM_addProcessNamespace hprocs hfuel, ?_⟩
  rw [showsAll_scan_iff hprocs]
  refine existsUnique_congr fun a => and_congr_left fun ha => ?_
  rw [(buildsForest_scan _).keys a]
  exact (or_iff_left fun h => ne_invisUserNS ha.1 h.1).symm

/-! Two processes in a PID namespace without a visible parent and in its child, and one in another
PID namespace without a visible parent. -/

def pidProcess (pid : Char) (ns : NamespaceID) : Process := ⟨[pid], fun _ => .ok ns⟩

def pidProcesses : List Process :=
  [pidProcess '3' (nsId 5), pidProcess '1' (nsId 6), pidProcess '2' (nsId 7)]

theorem returns_pidProcesses (c : Call) (hc : c ∈ calls (defaultOptions true) false pidProcesses) :
    c.Returns nestedKernel (defaultOptions true) := by
  simp only [calls, pidProcesses, pidProcess, nsSymlinks, defaultOptions, List.flatMap_cons,
    List.flatMap_nil, if_true, List.map_cons, List.map_nil, List.cons_append, List.nil_append,
    List.mem_cons, List.not_mem_nil, or_false] at hc
  obtain rfl | rfl | rfl := hc <;> exact Call.returns_of_pid rfl rfl (by decide)

theorem namespaces_of_shows_all_iff_nested :
    ∃ nsi, (∀ fuel, 2 * (nestedKernel.namespaces.card + 1) ≤ fuel →
        addProcesses nestedKernel (defaultOptions true) fuel false pidProcesses = .ok nsi) ∧
      (ShowsAll (defaultOptions true) nsi ↔
        ∃! a, (nsi.nsList a).isSome ∧ Topmost nestedKernel (defaultOptions true) a) :=
  namespaces_of_shows_all_iff returns_pidProcesses

theorem namespaces_of_hides_topmost :
    (∃ nsi, addProcesses nestedKernel (defaultOptions true) 16 false pidProcesses = .ok nsi ∧
      (nsi.nsList (nsId 5)).isSome ∧ ¬ ShowsAll (defaultOptions true) nsi) ∧
    main nestedKernel (defaultOptions true) 16 pidProcesses [] =
      .ok [(nsId 6, 0), (nsId 7, 1)] := by
  have hrecorded : ∀ p ∈ pidProcesses, ∀ ns, p.openNs .pid = .ok ns → Recorded nestedKernel
      (defaultOptions true) (calls (defaultOptions true) false pidProcesses) ns :=
    fun p hp ns hns => ⟨⟨p.pid, .pid, p.openNs .pid, false⟩,
      List.mem_flatMap.mpr ⟨p, hp, List.mem_singleton.mpr rfl⟩, ns, hns, .refl⟩
  have h5 := hrecorded (pidProcess '3' (nsId 5)) (by simp [pidProcesses]) _ rfl
  have h6 := hrecorded (pidProcess '1' (nsId 6)) (by simp [pidProcesses]) _ rfl
  refine ⟨⟨_, foldlM_addProcessNamespace returns_pidProcesses (by decide), ?_, ?_⟩, by decide⟩
  · exact ((buildsForest_scan _).keys _).mpr (.inl h5)
  · intro hall
    have hunique := (showsAll_scan_iff returns_pidProcesses).mp hall
    exact absurd (hunique.unique ⟨h5, by decide⟩ ⟨h6, by decide⟩) (by decide)

end Tlpi.Namespaces.NamespacesOf
