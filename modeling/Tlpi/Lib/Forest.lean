import Mathlib.Tactic
import Mathlib.Data.Set.Card
import Mathlib.Logic.Relation

/-! Finite forests that are given by the parent of each node. A walk that enters the ancestors of
a node before the node itself meets the nodes in an order from which the children of every node
can be read off; the traversal from the topmost nodes along these children meets each node once. -/

namespace Tlpi.Lib
open Relation

structure Forest (α : Type*) where
  up : α → Option α
  acyclic : ∀ a, ¬ TransGen (fun a b => up a = some b) a a

namespace Forest
variable {α : Type*} {F : Forest α} {a b r x y : α}

theorem acyclic_of_lt {up : α → Option α} (rank : α → ℕ)
    (h : ∀ a b, up a = some b → rank b < rank a) (a : α) :
    ¬ TransGen (fun a b => up a = some b) a a := by
  have hlt : ∀ b, TransGen (fun a b => up a = some b) a b → rank b < rank a := by
    intro b hb
    induction hb with
    | single hb => exact h _ _ hb
    | tail _ hb ih => exact (h _ _ hb).trans ih
  exact fun hc => lt_irrefl _ (hlt a hc)

variable (F) in
/-- `a` is `b` or a descendant of `b`. -/
def Below (a b : α) : Prop := ReflTransGen (fun a b => F.up a = some b) a b

theorem Below.refl (a : α) : F.Below a a := ReflTransGen.refl

theorem Below.trans (hab : F.Below a b) (hbx : F.Below b x) : F.Below a x :=
  ReflTransGen.trans hab hbx

theorem below_of_up (h : F.up a = some b) : F.Below a b := ReflTransGen.single h

theorem not_below_of_up (h : F.up a = some b) : ¬ F.Below b a :=
  fun hba => F.acyclic a (TransGen.head' h hba)

theorem below_iff_of_up (h : F.up a = some b) : F.Below a x ↔ x = a ∨ F.Below b x := by
  refine ReflTransGen.cases_head_iff.trans (or_congr eq_comm ?_)
  simp [h, Below]

theorem below_iff_of_top (h : F.up a = none) : F.Below a x ↔ x = a := by
  refine ReflTransGen.cases_head_iff.trans ?_
  simp [h, eq_comm]

theorem Below.total (hb : F.Below a b) (hx : F.Below a x) : F.Below b x ∨ F.Below x b :=
  ReflTransGen.total_of_right_unique
    (fun _ _ _ h h' => Option.some_injective _ (h.symm.trans h')) hb hx

/-- Two children of one node have no descendant in common. -/
theorem eq_of_below_siblings (ha : F.up a = some r) (hb : F.up b = some r) (hxa : F.Below x a)
    (hxb : F.Below x b) : a = b := by
  by_contra hne
  obtain h | h := hxa.total hxb
  · exact not_below_of_up hb (((below_iff_of_up ha).mp h).resolve_left (Ne.symm hne))
  · exact not_below_of_up ha (((below_iff_of_up hb).mp h).resolve_left hne)

variable (F) in
/-- The number of nodes from `a` up to its topmost ancestor. -/
noncomputable def height (a : α) : ℕ := {x | F.Below a x}.ncard

section Finite
variable [Finite α]

theorem height_of_up (h : F.up a = some b) : F.height a = F.height b + 1 := by
  have hset : {x | F.Below a x} = insert a {x | F.Below b x} := by
    ext x
    exact below_iff_of_up h
  have hfresh : a ∉ {x | F.Below b x} := not_below_of_up h
  rw [height, hset, Set.ncard_insert_of_notMem hfresh, height]

theorem height_pos (F : Forest α) (a : α) : 0 < F.height a := (Set.ncard_pos).mpr ⟨a, Below.refl a⟩

theorem height_le_card {S : Finset α} (h : ∀ x, F.Below a x → x ∈ S) : F.height a ≤ S.card := by
  rw [← Set.ncard_coe_finset]
  exact Set.ncard_le_ncard h

theorem Below.height_le (h : F.Below a b) : F.height b ≤ F.height a :=
  Set.ncard_le_ncard fun _ hx => h.trans hx

theorem exists_top (F : Forest α) (a : α) : ∃ r, F.Below a r ∧ F.up r = none := by
  induction h : F.height a generalizing a with
  | zero => exact absurd h (F.height_pos a).ne'
  | succ n ih =>
    match hup : F.up a with
    | none => exact ⟨a, Below.refl a, hup⟩
    | some b =>
      obtain ⟨r, hbr, hr⟩ := ih b (by have := height_of_up hup; omega)
      exact ⟨r, (below_of_up hup).trans hbr, hr⟩

end Finite

/-! ## The order of discovery -/

variable (F) in
/-- Nodes in an order in which each one comes once and no one comes without its ancestors. -/
structure Discovery where
  order : List α
  nodup : order.Nodup
  closed : ∀ a ∈ order, ∀ b, F.up a = some b → b ∈ order

namespace Discovery

def empty : F.Discovery := ⟨[], List.nodup_nil, by simp⟩

theorem mem_of_below (d : F.Discovery) (ha : a ∈ d.order) (hab : F.Below a b) : b ∈ d.order := by
  induction hab with
  | refl => exact ha
  | tail _ hup ih => exact d.closed _ ih _ hup

def children [DecidableEq α] (d : F.Discovery) (x : α) : List α :=
  d.order.filter fun a => F.up a = some x

theorem mem_children [DecidableEq α] {d : F.Discovery} :
    a ∈ d.children x ↔ a ∈ d.order ∧ F.up a = some x := by
  simp [children]

theorem nodup_children [DecidableEq α] (d : F.Discovery) (x : α) : (d.children x).Nodup :=
  d.nodup.filter _

theorem children_eq_nil [DecidableEq α] {d : F.Discovery} (hx : x ∉ d.order) :
    d.children x = [] := by
  refine List.filter_eq_nil_iff.mpr fun a ha hup => hx ?_
  exact d.closed a ha x (of_decide_eq_true hup)

end Discovery

def discover [DecidableEq α] [Finite α] (F : Forest α) (order : List α) (a : α) : List α :=
  if a ∈ order then order
  else match h : F.up a with
    | none => order ++ [a]
    | some b =>
      have : F.height b < F.height a := by rw [height_of_up h]; exact Nat.lt_succ_self _
      F.discover order b ++ [a]
termination_by F.height a

variable [DecidableEq α] [Finite α]

theorem mem_discover (d : F.Discovery) : x ∈ F.discover d.order a ↔ x ∈ d.order ∨ F.Below a x := by
  fun_induction F.discover d.order a with
  | case1 a ha =>
    exact ⟨.inl, fun h => h.elim id (d.mem_of_below ha)⟩
  | case2 a ha hup => simp [below_iff_of_top hup]
  | case3 a ha b hup _ ih =>
    rw [List.mem_append, ih, List.mem_singleton, below_iff_of_up hup, or_assoc,
      or_comm (a := x = a)]

theorem nodup_discover (d : F.Discovery) (a : α) : (F.discover d.order a).Nodup := by
  fun_induction F.discover d.order a with
  | case1 a ha => exact d.nodup
  | case2 a ha hup => exact d.nodup.append (List.nodup_singleton a) (by simpa using ha)
  | case3 a ha b hup _ ih =>
    have hfresh : a ∉ F.discover d.order b := by
      rw [mem_discover]
      exact not_or.mpr ⟨ha, not_below_of_up hup⟩
    exact ih.append (List.nodup_singleton a) (by simpa using hfresh)

namespace Discovery

def visit (d : F.Discovery) (a : α) : F.Discovery where
  order := F.discover d.order a
  nodup := nodup_discover d a
  closed x hx b hup := by
    rw [mem_discover] at hx ⊢
    exact hx.imp (fun h => d.closed x h b hup) fun h => h.trans (below_of_up hup)

theorem mem_visit {d : F.Discovery} : x ∈ (d.visit a).order ↔ x ∈ d.order ∨ F.Below a x :=
  mem_discover d

theorem visit_of_mem {d : F.Discovery} (ha : a ∈ d.order) : d.visit a = d := by
  simp only [visit]
  congr
  rw [discover, if_pos ha]

theorem order_visit_of_top {d : F.Discovery} (ha : a ∉ d.order) (hup : F.up a = none) :
    (d.visit a).order = d.order ++ [a] := by
  change F.discover d.order a = _
  rw [discover, if_neg ha]
  split <;> simp_all

theorem order_visit_of_up {d : F.Discovery} (ha : a ∉ d.order) (hup : F.up a = some b) :
    (d.visit a).order = (d.visit b).order ++ [a] := by
  change F.discover d.order a = F.discover d.order b ++ [a]
  rw [discover, if_neg ha]
  split <;> simp_all

theorem children_visit_of_top {d : F.Discovery} (ha : a ∉ d.order) (hup : F.up a = none) (x : α) :
    (d.visit a).children x = d.children x := by
  simp [children, order_visit_of_top ha hup, hup]

theorem children_visit_of_up {d : F.Discovery} (ha : a ∉ d.order) (hup : F.up a = some b) (x : α) :
    (d.visit a).children x = (d.visit b).children x ++ if x = b then [a] else [] := by
  simp only [children, order_visit_of_up ha hup, List.filter_append]
  by_cases hx : x = b <;> simp [hup, hx, Ne.symm]

end Discovery

/-! ## The traversal along the children -/

def preorder (children : α → List α) : ℕ → α → List α
  | 0, _ => []
  | fuel + 1, a => a :: (children a).flatMap (preorder children fuel)

namespace Discovery
variable {d : F.Discovery} {fuel : ℕ}

theorem height_le_length (ha : a ∈ d.order) : F.height a ≤ d.order.length := by
  refine (height_le_card (S := d.order.toFinset) fun x hx => ?_).trans (List.toFinset_card_le _)
  exact List.mem_toFinset.mpr (d.mem_of_below ha hx)

theorem mem_preorder (ha : a ∈ d.order) (hfuel : d.order.length < fuel + F.height a) :
    x ∈ preorder d.children fuel a ↔ x ∈ d.order ∧ F.Below x a := by
  induction fuel generalizing a with
  | zero => exact absurd (height_le_length ha) (by omega)
  | succ fuel ih =>
    have hchild : ∀ b ∈ d.children a,
        (x ∈ preorder d.children fuel b ↔ x ∈ d.order ∧ F.Below x b) := by
      intro b hb
      obtain ⟨hb, hup⟩ := mem_children.mp hb
      exact ih hb (by rw [height_of_up hup]; omega)
    simp only [preorder, List.mem_cons, List.mem_flatMap]
    constructor
    · rintro (rfl | ⟨b, hb, hx⟩)
      · exact ⟨ha, Below.refl x⟩
      · obtain ⟨hx, hxb⟩ := (hchild b hb).mp hx
        exact ⟨hx, hxb.trans (below_of_up (mem_children.mp hb).2)⟩
    · rintro ⟨hx, hxa⟩
      obtain rfl | ⟨b, hxb, hup⟩ := ReflTransGen.cases_tail hxa
      · exact .inl rfl
      · have hb : b ∈ d.children a := mem_children.mpr ⟨d.mem_of_below hx hxb, hup⟩
        exact .inr ⟨b, hb, (hchild b hb).mpr ⟨hx, hxb⟩⟩

theorem nodup_preorder (ha : a ∈ d.order) (hfuel : d.order.length < fuel + F.height a) :
    (preorder d.children fuel a).Nodup := by
  induction fuel generalizing a with
  | zero => exact List.nodup_nil
  | succ fuel ih =>
    have hchild : ∀ b ∈ d.children a,
        b ∈ d.order ∧ F.up b = some a ∧ d.order.length < fuel + F.height b := by
      intro b hb
      obtain ⟨hb, hup⟩ := mem_children.mp hb
      exact ⟨hb, hup, by rw [height_of_up hup]; omega⟩
    refine List.nodup_cons.mpr ⟨?_, List.nodup_flatMap.mpr ⟨?_, ?_⟩⟩
    · intro h
      obtain ⟨b, hb, hab⟩ := List.mem_flatMap.mp h
      obtain ⟨hb, hup, hf⟩ := hchild b hb
      exact not_below_of_up hup ((mem_preorder hb hf).mp hab).2
    · intro b hb
      obtain ⟨hb, -, hf⟩ := hchild b hb
      exact ih hb hf
    · refine (d.nodup_children a).imp_of_mem fun {b b'} hb hb' hne x hx hx' => hne ?_
      obtain ⟨hb, hup, hf⟩ := hchild b hb
      obtain ⟨hb', hup', hf'⟩ := hchild b' hb'
      exact eq_of_below_siblings hup hup' ((mem_preorder hb hf).mp hx).2
        ((mem_preorder hb' hf').mp hx').2

theorem preorder_eq_of_le {n : ℕ} (ha : a ∈ d.order) (hfuel : d.order.length < fuel + F.height a)
    (hn : fuel ≤ n) : preorder d.children n a = preorder d.children fuel a := by
  induction fuel generalizing a n with
  | zero => exact absurd (height_le_length ha) (by omega)
  | succ fuel ih =>
    obtain ⟨n, rfl⟩ : ∃ m, n = m + 1 := ⟨n - 1, by omega⟩
    refine congrArg (a :: ·) (List.flatMap_congr fun b hb => ?_)
    obtain ⟨hb, hup⟩ := mem_children.mp hb
    exact ih hb (by rw [height_of_up hup]; omega) (by omega)

/-- How often a node is met by the traversals from a list of topmost nodes. -/
theorem count_flatMap_preorder {roots : List α} (hroots : ∀ r ∈ roots, r ∈ d.order ∧ F.up r = none)
    (hfuel : d.order.length ≤ fuel) (hx : x ∈ d.order) (hxr : F.Below x r) (hr : F.up r = none) :
    (roots.flatMap (preorder d.children fuel)).count x = roots.count r := by
  have hmet : ∀ r' ∈ roots,
      (preorder d.children fuel r').count x = if r' = r then 1 else 0 := by
    intro r' hr'
    obtain ⟨hmem, htop⟩ := hroots r' hr'
    have hf : d.order.length < fuel + F.height r' := by have := F.height_pos r'; omega
    rw [(nodup_preorder hmem hf).count]
    refine if_congr ((mem_preorder hmem hf).trans ⟨?_, ?_⟩) rfl rfl
    · rintro ⟨-, hxr'⟩
      obtain h | h := hxr.total hxr'
      · exact (below_iff_of_top hr).mp h
      · exact ((below_iff_of_top htop).mp h).symm
    · rintro rfl
      exact ⟨hx, hxr⟩
  induction roots with
  | nil => rfl
  | cons r' roots ih =>
    rw [List.flatMap_cons, List.count_append, hmet r' List.mem_cons_self,
      ih (fun s hs => hroots s (List.mem_cons_of_mem _ hs))
        fun s hs => hmet s (List.mem_cons_of_mem _ hs), List.count_cons, add_comm]
    simp

/-- The traversals from a list of topmost nodes meet every node once exactly when every topmost
node is in the list once. -/
theorem count_flatMap_preorder_eq_one_iff {roots : List α}
    (hroots : ∀ r ∈ roots, r ∈ d.order ∧ F.up r = none) (hfuel : d.order.length ≤ fuel) :
    (∀ x ∈ d.order, (roots.flatMap (preorder d.children fuel)).count x = 1) ↔
      ∀ r ∈ d.order, F.up r = none → roots.count r = 1 := by
  constructor
  · intro h r hr htop
    rw [← count_flatMap_preorder hroots hfuel hr (Below.refl r) htop]
    exact h r hr
  · intro h x hx
    obtain ⟨r, hxr, htop⟩ := F.exists_top x
    rw [count_flatMap_preorder hroots hfuel hx hxr htop]
    exact h r (d.mem_of_below hx hxr) htop

end Discovery

end Forest

end Tlpi.Lib
