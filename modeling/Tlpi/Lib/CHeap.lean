import Tlpi.Lib.CString

/-! Strings in memory. A heap is a list of blocks of characters, and a pointer is a block with an
offset. An access that is not defined is `none`. A string can be cut in two by a null byte. -/

namespace Tlpi.Lib.CHeap

abbrev Heap := List (List Char)

structure Ptr where
  block : ℕ
  off : ℕ
  deriving DecidableEq

def Ptr.add (p : Ptr) (n : ℕ) : Ptr := ⟨p.block, p.off + n⟩

/-- The memory from the pointer to the end of its block. -/
def tail (h : Heap) (p : Ptr) : List Char := (h[p.block]?.getD []).drop p.off

/-- The string that a pointer points to. -/
def string (h : Heap) (p : Ptr) : Option (List Char) :=
  if '\x00' ∈ tail h p then some ((tail h p).takeWhile (· ≠ '\x00')) else none

def store (h : Heap) (p : Ptr) (c : Char) : Option Heap :=
  match h[p.block]? with
  | none => none
  | some m => if p.off < m.length then some (h.set p.block (m.set p.off c)) else none

def strdup (h : Heap) (p : Ptr) : Option (Heap × Ptr) :=
  (string h p).map fun s => (h ++ [s ++ ['\x00']], ⟨h.length, 0⟩)

/-- The inner `none` is a null pointer. -/
def strchr (h : Heap) (p : Ptr) (c : Char) : Option (Option Ptr) :=
  (string h p).map fun s => (Lib.strchr c s).map fun t => p.add t.1.length

def free (h : Heap) (p : Ptr) : Heap := h.set p.block []

def Points (h : Heap) (p : Ptr) (s : List Char) : Prop :=
  '\x00' ∉ s ∧ ∃ rest, tail h p = s ++ '\x00' :: rest

variable {h h' : Heap} {p q : Ptr} {s t : List Char} {c : Char}

theorem tail_add (h : Heap) (p : Ptr) (n : ℕ) : tail h (p.add n) = (tail h p).drop n := by
  rw [tail, tail, List.drop_drop]
  rfl

theorem Points.string_eq (hp : Points h p s) : string h p = some s := by
  obtain ⟨hs, rest, htail⟩ := hp
  have hall : ∀ x ∈ s, decide (x ≠ '\x00') = true := by
    intro x hx
    rw [decide_eq_true_eq]
    rintro rfl
    exact hs hx
  rw [string, htail, if_pos (by simp), List.takeWhile_append_of_pos hall]
  simp

theorem Points.strchr_none (hp : Points h p s) (hc : c ∉ s) : strchr h p c = some none := by
  rw [strchr, hp.string_eq, Option.map_some, strchr_eq_none_iff.mpr hc]
  rfl

theorem Points.strchr_some (hp : Points h p (s ++ c :: t)) (hc : c ∉ s) :
    strchr h p c = some (some (p.add s.length)) := by
  rw [strchr, hp.string_eq, Option.map_some, strchr_eq_some_iff.mpr ⟨rfl, hc⟩]
  rfl

theorem Points.strdup (hp : Points h p s) :
    ∃ h', strdup h p = some (h', ⟨h.length, 0⟩) ∧ Points h' ⟨h.length, 0⟩ s ∧
      ∀ b < h.length, h'[b]? = h[b]? := by
  refine ⟨h ++ [s ++ ['\x00']], ?_, ⟨hp.1, [], ?_⟩, ?_⟩
  · rw [CHeap.strdup, hp.string_eq, Option.map_some]
  · simp [tail]
  · intro b hb
    rw [List.getElem?_append_left hb]

theorem tail_store (hstore : store h p c = some h') (q : Ptr) :
    tail h' q = if q.block = p.block ∧ q.off ≤ p.off then (tail h q).set (p.off - q.off) c
      else tail h q := by
  unfold store at hstore
  split at hstore
  · cases hstore
  · next m hm =>
    obtain ⟨hlt, hset⟩ := Option.ite_none_right_eq_some.mp hstore
    obtain ⟨hblock, -⟩ := List.getElem?_eq_some_iff.mp hm
    rw [← Option.some.inj hset, tail, tail]
    by_cases hq : q.block = p.block
    · rw [hq, List.getElem?_set_self hblock, hm, Option.getD_some, Option.getD_some, List.drop_set]
      split_ifs <;> first | rfl | omega
    · rw [List.getElem?_set_ne (Ne.symm hq), if_neg (by simp [hq])]

theorem blocks_store (hstore : store h p c = some h') {b : ℕ} (hb : b ≠ p.block) :
    h'[b]? = h[b]? := by
  unfold store at hstore
  split at hstore
  · cases hstore
  · obtain ⟨-, hset⟩ := Option.ite_none_right_eq_some.mp hstore
    rw [← Option.some.inj hset, List.getElem?_set_ne hb.symm]

theorem exists_store (hp : tail h p ≠ []) (c : Char) : ∃ h', store h p c = some h' := by
  unfold store
  cases hm : h[p.block]? with
  | none =>
    rw [tail, hm] at hp
    exact absurd List.drop_nil hp
  | some m =>
    rw [tail, hm, Option.getD_some, ne_eq, List.drop_eq_nil_iff, not_le] at hp
    exact ⟨_, if_pos hp⟩

/-- A null byte in place of a character cuts the string in two, and strings behind it in the same
block stay. -/
theorem Points.cut (hp : Points h p (s ++ c :: t)) :
    ∃ h', store h (p.add s.length) '\x00' = some h' ∧ Points h' p s ∧
      Points h' (p.add (s.length + 1)) t ∧
      (∀ q u, p.off + s.length < q.off → Points h q u → Points h' q u) ∧
      ∀ b ≠ p.block, h'[b]? = h[b]? := by
  obtain ⟨hnull, rest, htail⟩ := hp
  rw [List.append_assoc, List.cons_append] at htail
  have hcell : tail h (p.add s.length) = c :: (t ++ '\x00' :: rest) := by
    rw [tail_add, htail, List.drop_left]
  obtain ⟨h', hstore⟩ := exists_store (by rw [hcell]; exact List.cons_ne_nil _ _) '\x00'
  have hbehind : ∀ q : Ptr, p.off + s.length < q.off → tail h' q = tail h q := by
    intro q hq
    rw [tail_store hstore, if_neg]
    rintro ⟨-, hle⟩
    exact absurd hle (not_le.mpr hq)
  refine ⟨h', hstore, ⟨?_, t ++ '\x00' :: rest, ?_⟩, ⟨?_, rest, ?_⟩, ?_, ?_⟩
  · exact fun hmem => hnull (List.mem_append_left _ hmem)
  · rw [tail_store hstore, if_pos ⟨rfl, Nat.le_add_right _ _⟩, htail,
      show (p.add s.length).off - p.off = s.length from Nat.add_sub_cancel_left _ _,
      List.set_append_right _ _ le_rfl, Nat.sub_self, List.set_cons_zero]
  · exact fun hmem => hnull (List.mem_append_right _ (List.mem_cons_of_mem _ hmem))
  · rw [hbehind _ (Nat.lt_succ_self _), tail_add, htail, ← List.drop_drop, List.drop_left]
    rfl
  · rintro q u hq ⟨hu, rest', hrest⟩
    exact ⟨hu, rest', (hbehind q hq).trans hrest⟩
  · exact fun b hb => blocks_store hstore hb

end Tlpi.Lib.CHeap
