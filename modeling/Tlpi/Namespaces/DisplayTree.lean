import Tlpi.Namespaces.Display

/-! The subtree that `displayNamespaceTree()` displays: which namespaces, in which order and how
deeply indented, for every namespace of a map that the scan has built. -/

namespace Tlpi.Namespaces.NamespacesOf
open Lib

/-! ## The text of one namespace -/

def ESC : Char := '\x1b'
def YELLOW : List Char := ESC :: "[93m".toList
def BOLD : List Char := ESC :: "[1m".toList
def NORMAL : List Char := ESC :: "(B".toList ++ ESC :: "[m".toList
def USERNS_COLOR : List Char := YELLOW ++ BOLD

/-- What `fmt.Print()` writes for the ID. -/
def NamespaceID.text (ns : NamespaceID) : List Char :=
  '\x7b' :: (toString ns.device).toList ++ ' ' :: (toString ns.inode).toList ++ ['\x7d']

/-- `displayMemberPIDs` is what the function of that name writes for the PIDs of a namespace. -/
def displayNamespace (useColor showPids : Bool)
    (displayMemberPIDs : List Char → List ℤ → List Char) (ns : NamespaceID)
    (attribs : NamespaceAttribs) (level : ℕ) : List Char :=
  let indent := List.replicate (level * 4) ' '
  let colorUserNS : Bool := attribs.nsType = .user && useColor
  (if colorUserNS then USERNS_COLOR else []) ++
  (if ns = invisUserNS then "[invisible ancestor user NS]\n".toList
    else indent ++ attribs.nsType.symlink.toList ++ ' ' :: NamespaceID.text ns ++
      (if attribs.nsType = .user
        then " <UID: ".toList ++ (toString attribs.creatorUID).toList ++ ['>'] else []) ++
      ['\n']) ++
  (if colorUserNS then NORMAL else []) ++
  (if showPids then displayMemberPIDs indent attribs.pids else [])

/-- The blanks before a namespace; the entry of the invisible owner is never indented. -/
theorem displayNamespace_indent (useColor showPids : Bool)
    (displayMemberPIDs : List Char → List ℤ → List Char) {ns : NamespaceID} (hns : ns ≠ invisUserNS)
    (attribs : NamespaceAttribs) (level : ℕ) :
    ∃ color rest, displayNamespace useColor showPids displayMemberPIDs ns attribs level =
        color ++ List.replicate (level * 4) ' ' ++ attribs.nsType.symlink.toList ++ rest ∧
      (color = [] ∨ color = USERNS_COLOR) := by
  rw [displayNamespace, if_neg hns]
  simp only [List.append_assoc]
  refine ⟨_, _, rfl, ?_⟩
  split_ifs
  · exact .inr rfl
  · exact .inl rfl

/-! ## Descendants -/

/-- The distance between a namespace and one in the tree below it. -/
inductive Descendant (nsi : NamespaceInfo) (ns : NamespaceID) : ℕ → NamespaceID → Prop
  | self : Descendant nsi ns 0 ns
  | child {d : ℕ} {p x : NamespaceID} {a : NamespaceAttribs} : Descendant nsi ns d p →
      nsi.nsList p = some a → x ∈ a.children → Descendant nsi ns (d + 1) x

variable {k : Kernel} {opts : CmdLineOptions} {s : Scan k opts} {ns x : NamespaceID}

theorem descendant_iff (hns : ns ∈ s.found.order) {d : ℕ} :
    Descendant (s.info []) ns d x ↔ x ∈ s.found.order ∧ (forest k opts).Below x ns ∧
      (forest k opts).height x = (forest k opts).height ns + d := by
  constructor
  · intro h
    induction h with
    | self => exact ⟨hns, Forest.Below.refl ns, rfl⟩
    | child _ ha hx ih =>
      obtain ⟨-, hbelow, hheight⟩ := ih
      rw [info_eq_some ha] at hx
      obtain ⟨hx, hup⟩ := Forest.Discovery.mem_children.mp hx
      refine ⟨hx, (Forest.below_of_up hup).trans hbelow, ?_⟩
      rw [Forest.height_of_up hup, hheight, Nat.add_assoc]
  · rintro ⟨hx, hbelow, hheight⟩
    -- from the namespace up to `ns`
    induction hbelow using Relation.ReflTransGen.head_induction_on generalizing d with
    | refl =>
      obtain rfl : d = 0 := by omega
      exact .self
    | head hup hbelow ih =>
      have hp := s.found.closed _ hx _ hup
      have hstep := Forest.height_of_up (F := forest k opts) hup
      have hle := Forest.Below.height_le (F := forest k opts) hbelow
      obtain ⟨d, rfl⟩ : ∃ d', d = d' + 1 := ⟨d - 1, by omega⟩
      exact .child (ih hp (by omega)) (nsList_info hp) (Forest.Discovery.mem_children.mpr ⟨hx, hup⟩)

/-! ## The subtree -/

/-- All namespaces of the subtree in the order of the traversal. -/
def Scan.subtree (s : Scan k opts) (ns : NamespaceID) : List NamespaceID :=
  Forest.preorder s.found.children s.found.order.length ns

theorem subtree_eq (hns : ns ∈ s.found.order) :
    s.subtree ns = ns :: (s.found.children ns).flatMap s.subtree := by
  have hpos := (forest k opts).height_pos ns
  obtain ⟨n, hn⟩ : ∃ n, s.found.order.length = n + 1 :=
    Nat.exists_eq_succ_of_ne_zero (List.length_pos_of_mem hns).ne'
  unfold Scan.subtree
  rw [hn, Forest.preorder]
  refine congrArg (ns :: ·) (List.flatMap_congr fun a ha => ?_)
  obtain ⟨ha, hup⟩ := Forest.Discovery.mem_children.mp ha
  have hheight := Forest.height_of_up hup
  exact (Forest.Discovery.preorder_eq_of_le ha (by omega) (Nat.le_succ n)).symm

theorem mem_subtree (hns : ns ∈ s.found.order) :
    x ∈ s.subtree ns ↔ x ∈ s.found.order ∧ (forest k opts).Below x ns := by
  have hpos := (forest k opts).height_pos ns
  exact Forest.Discovery.mem_preorder hns (by omega)

theorem nodup_subtree (hns : ns ∈ s.found.order) : (s.subtree ns).Nodup := by
  have hpos := (forest k opts).height_pos ns
  exact Forest.Discovery.nodup_preorder hns (by omega)

/-- Whether the namespace filter lets a namespace through. -/
def displayed (opts : CmdLineOptions) (nsi : NamespaceInfo) (x : NamespaceID) : Bool :=
  (nsi.nsList x).any fun a => opts.shows a.nsType

theorem displayed_info (hx : x ∈ s.found.order) :
    displayed opts (s.info []) x = opts.shows (s.attribs x).nsType := by
  rw [displayed, nsList_info hx]
  rfl

theorem map_fst_tree_eq (hns : ns ∈ s.found.order) (level : ℕ) :
    (s.tree s.found.order.length ns level).map Prod.fst =
      (s.subtree ns).filter (displayed opts (s.info [])) := by
  rw [Scan.tree, List.map_map]
  refine (List.map_id _).trans (List.filter_congr ?_)
  intro x hx
  exact (displayed_info ((mem_subtree hns).mp hx).1).symm

theorem mem_tree (hns : ns ∈ s.found.order) {level l : ℕ} :
    (x, l) ∈ s.tree s.found.order.length ns level ↔
      displayed opts (s.info []) x = true ∧ ∃ d, Descendant (s.info []) ns d x ∧ l = level + d := by
  unfold Scan.tree
  simp only [List.mem_map, List.mem_filter, Prod.mk.injEq]
  constructor
  · rintro ⟨y, ⟨hy, hshown⟩, rfl, rfl⟩
    obtain ⟨hy, hbelow⟩ := (mem_subtree hns).mp hy
    have hle := hbelow.height_le
    refine ⟨(displayed_info hy).trans hshown, _, (descendant_iff hns).mpr ⟨hy, hbelow, ?_⟩, rfl⟩
    omega
  · rintro ⟨hshown, d, hd, rfl⟩
    obtain ⟨hx, hbelow, hheight⟩ := (descendant_iff hns).mp hd
    refine ⟨x, ⟨(mem_subtree hns).mpr ⟨hx, hbelow⟩, (displayed_info hx).symm.trans hshown⟩, rfl, ?_⟩
    omega

/-- The subtree of a recorded namespace, in pre-order, without the namespaces that are not shown. -/
theorem displayNamespaceTree_exact (useColor showPids : Bool)
    (displayMemberPIDs : List Char → List ℤ → List Char) {calls : List Call}
    (hcalls : ∀ c ∈ calls, c.Returns k opts) :
    ∃ nsi, (∀ fuel, 2 * (k.namespaces.card + 1) ≤ fuel →
        calls.foldlM (addProcessNamespace k opts fuel) .empty = .ok nsi) ∧
      ∃ preorder : NamespaceID → List NamespaceID,
        (∀ x a, nsi.nsList x = some a → preorder x = x :: a.children.flatMap preorder) ∧
        ∀ ns level, (nsi.nsList ns).isSome →
          ∃ out, (∃ N, ∀ fuel, N ≤ fuel →
              displayNamespaceTree opts nsi fuel ns level = .ok out) ∧
            out.map Prod.fst = (preorder ns).filter (displayed opts nsi) ∧
            (out.map Prod.fst).Nodup ∧
            (∀ x l, (x, l) ∈ out ↔ displayed opts nsi x = true ∧
              ∃ d, Descendant nsi ns d x ∧ l = level + d) ∧
            ∀ x l a, (x, l) ∈ out → x ≠ invisUserNS → ∃ color rest,
              displayNamespace useColor showPids displayMemberPIDs x a l =
                color ++ List.replicate (l * 4) ' ' ++ a.nsType.symlink.toList ++ rest ∧
              (color = [] ∨ color = USERNS_COLOR) := by
  set s := scan k opts calls with hs
  have hrecorded : ∀ x, ((s.info []).nsList x).isSome ↔ x ∈ s.found.order := by simp [Scan.info]
  refine ⟨s.info [], fun fuel => foldlM_addProcessNamespace hcalls, s.subtree, ?_, ?_⟩
  · intro x a ha
    rw [info_eq_some ha]
    exact subtree_eq ((hrecorded x).mp (Option.isSome_of_eq_some ha))
  · intro ns level hns
    have hns := (hrecorded ns).mp hns
    have hmap := map_fst_tree_eq hns level
    refine ⟨s.tree s.found.order.length ns level,
      ⟨s.found.order.length, fun fuel hfuel => displayNamespaceTree_eq hns hfuel⟩, hmap, ?_, ?_, ?_⟩
    · rw [hmap]
      exact (nodup_subtree hns).filter _
    · intro x l
      exact mem_tree hns
    · intro x l a _ hx
      exact displayNamespace_indent useColor showPids displayMemberPIDs hx a l

/-- Only UTS namespaces besides the user namespaces. -/
theorem displayNamespaceTree_exact_nested :
    (∀ c ∈ nestedCalls, c.Returns nestedKernel ⟨false, NsType.uts.flag⟩) ∧
    ∃ nsi, nestedCalls.foldlM (addProcessNamespace nestedKernel ⟨false, NsType.uts.flag⟩ 16)
        .empty = .ok nsi ∧
      ∃ out, (∃ N, ∀ fuel, N ≤ fuel →
          displayNamespaceTree ⟨false, NsType.uts.flag⟩ nsi fuel (nsId 1) 2 = .ok out) ∧
        (out.map Prod.fst).Nodup := by
  have hreturns := returns_nestedCalls NsType.uts.flag
  obtain ⟨nsi, hbuild, preorder, -, htree⟩ :=
    displayNamespaceTree_exact true false (fun _ _ => []) hreturns
  have hnsi := hbuild 16 (by decide)
  have hroot : ((nestedCalls.foldlM (addProcessNamespace nestedKernel ⟨false, NsType.uts.flag⟩ 16)
      .empty).toOption.any fun nsi => (nsi.nsList (nsId 1)).isSome) = true := by decide
  rw [hnsi] at hroot
  obtain ⟨out, hout, -, hnodup, -⟩ := htree (nsId 1) 2 hroot
  exact ⟨hreturns, nsi, hnsi, out, hout, hnodup⟩

end Tlpi.Namespaces.NamespacesOf
