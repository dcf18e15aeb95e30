import Mathlib.Tactic

/-! Blocks of memory as lists of cells. A store or load that is not within the block is `none`. What
a part of the block holds is not changed by a store to another part. Little-endian numbers. -/

namespace Tlpi.Lib.Memory

section Cells

variable {β : Type*} {m m' m'' : List β} {off off' n n' : ℕ} {bs cs : List β}

def store (m : List β) (off : ℕ) (bs : List β) : Option (List β) :=
  if off + bs.length ≤ m.length then some (m.take off ++ bs ++ m.drop (off + bs.length)) else none

def load (m : List β) (off n : ℕ) : Option (List β) :=
  if off + n ≤ m.length then some ((m.drop off).take n) else none

/-- The cells from `off` on are `bs`. -/
def Holds (m : List β) (off : ℕ) (bs : List β) : Prop := ∀ i < bs.length, m[off + i]? = bs[i]?

/-- Only cells among the `n` from `off` on are changed. -/
structure Frame (m m' : List β) (off n : ℕ) : Prop where
  length : m'.length = m.length
  outside : ∀ i, i < off ∨ off + n ≤ i → m'[i]? = m[i]?

theorem Frame.refl (m : List β) (off n : ℕ) : Frame m m off n := ⟨rfl, fun _ _ => rfl⟩

theorem Frame.mono (h : Frame m m' off' n') (hle : off ≤ off') (hge : off' + n' ≤ off + n) :
    Frame m m' off n := by
  refine ⟨h.length, ?_⟩
  intro i hi
  exact h.outside i (by omega)

theorem Frame.trans (h : Frame m m' off n) (h' : Frame m' m'' off n) : Frame m m'' off n := by
  refine ⟨h'.length.trans h.length, ?_⟩
  intro i hi
  exact (h'.outside i hi).trans (h.outside i hi)

theorem Holds.frame (h : Holds m off' bs) (hf : Frame m m' off n)
    (hdisj : off' + bs.length ≤ off ∨ off + n ≤ off') : Holds m' off' bs := by
  intro i hi
  rw [hf.outside (off' + i) (by omega)]
  exact h i hi

theorem Holds.append (h : Holds m off bs) (h' : Holds m (off + bs.length) cs) :
    Holds m off (bs ++ cs) := by
  intro i hi
  rw [List.length_append] at hi
  by_cases hlt : i < bs.length
  · rw [List.getElem?_append_left hlt]
    exact h i hlt
  · have hrest := h' (i - bs.length) (by omega)
    rw [List.getElem?_append_right (by omega), ← hrest]
    congr 1
    omega

theorem Holds.left (h : Holds m off (bs ++ cs)) : Holds m off bs := by
  intro i hi
  rw [h i (by rw [List.length_append]; omega), List.getElem?_append_left hi]

theorem Holds.right (h : Holds m off (bs ++ cs)) : Holds m (off + bs.length) cs := by
  intro i hi
  rw [Nat.add_assoc, h (bs.length + i) (by rw [List.length_append]; omega),
    List.getElem?_append_right (by omega), Nat.add_sub_cancel_left]

theorem holds_replicate (k : ℕ) (b : β) (h : off + n ≤ k) :
    Holds (List.replicate k b) off (List.replicate n b) := by
  intro i hi
  rw [List.length_replicate] at hi
  rw [List.getElem?_replicate_of_lt (by omega), List.getElem?_replicate_of_lt hi]

theorem load_eq (h : Holds m off bs) (hle : off + bs.length ≤ m.length) :
    load m off bs.length = some bs := by
  rw [load, if_pos hle]
  refine congrArg some (List.ext_getElem? fun i => ?_)
  by_cases hi : i < bs.length
  · rw [List.getElem?_take_of_lt hi, List.getElem?_drop, h i hi]
  · rw [List.getElem?_eq_none (by rw [List.length_take]; omega), List.getElem?_eq_none (by omega)]

/-- The rule for stores. -/
theorem store_spec (h : off + bs.length ≤ m.length) :
    ∃ m', store m off bs = some m' ∧ Frame m m' off bs.length ∧ Holds m' off bs := by
  have htake : (m.take off).length = off := by
    rw [List.length_take]
    omega
  have hpre : (m.take off ++ bs).length = off + bs.length := by
    rw [List.length_append, htake]
  refine ⟨_, if_pos h, ⟨?_, ?_⟩, ?_⟩
  · rw [List.length_append, hpre, List.length_drop]
    omega
  · rintro i (hi | hi)
    · rw [List.append_assoc, List.getElem?_append_left (by omega), List.getElem?_take_of_lt hi]
    · rw [List.getElem?_append_right (by omega), List.getElem?_drop, hpre]
      congr 1
      omega
  · intro i hi
    rw [List.getElem?_append_left (by omega), List.getElem?_append_right (by omega), htake,
      Nat.add_sub_cancel_left]

theorem store_some (h : store m off bs = some m') :
    Frame m m' off bs.length ∧ Holds m' off bs := by
  obtain ⟨hle, -⟩ := Option.ite_none_right_eq_some.mp h
  obtain ⟨m₁, hstore, hspec⟩ := store_spec hle
  obtain rfl : m₁ = m' := Option.some.inj (hstore.symm.trans h)
  exact hspec

theorem getElem?_store (h : store m off bs = some m') (i : ℕ) :
    m'[i]? = if off ≤ i ∧ i < off + bs.length then bs[i - off]? else m[i]? := by
  obtain ⟨hframe, hholds⟩ := store_some h
  split_ifs with hi
  · rw [← hholds (i - off) (by omega), Nat.add_sub_cancel' hi.1]
  · exact hframe.outside i (by omega)

/-- What is in a part of a block that has been copied to another one. -/
theorem Holds.copy (h : Holds m off bs) (h' : Holds bs n cs) (hle : n + cs.length ≤ bs.length) :
    Holds m (off + n) cs := by
  intro i hi
  rw [Nat.add_assoc, h (n + i) (by omega), h' i hi]

theorem load_spec (h : off + n ≤ m.length) :
    ∃ bs, load m off n = some bs ∧ bs.length = n ∧ Holds m off bs := by
  refine ⟨_, if_pos h, ?_, ?_⟩
  · rw [List.length_take, List.length_drop]
    omega
  · intro i hi
    rw [List.length_take] at hi
    rw [List.getElem?_take_of_lt (by omega), List.getElem?_drop]

/-- A part of what is loaded. -/
theorem Holds.load (h : Holds m (off + n') cs) (hload : load m off n = some bs)
    (hle : n' + cs.length ≤ n) : Holds bs n' cs := by
  obtain ⟨-, hbs⟩ := Option.ite_none_right_eq_some.mp hload
  obtain rfl := Option.some.inj hbs
  intro i hi
  rw [List.getElem?_take_of_lt (by omega), List.getElem?_drop, ← Nat.add_assoc]
  exact h i hi

/-! ## Several stores -/

/-- Stores one after the other. -/
def storeAll (m : List β) (ws : List (ℕ × List β)) : Option (List β) :=
  ws.foldlM (fun m w => store m w.1 w.2) m

theorem storeAll_cons (m : List β) (w : ℕ × List β) (ws : List (ℕ × List β)) :
    storeAll m (w :: ws) = (store m w.1 w.2).bind fun m => storeAll m ws := rfl

theorem storeAll_append (m : List β) (ws ws' : List (ℕ × List β)) :
    storeAll m (ws ++ ws') = (storeAll m ws).bind fun m => storeAll m ws' :=
  List.foldlM_append

/-- The cell is in none of the parts that are written. -/
def Untouched (i : ℕ) (ws : List (ℕ × List β)) : Prop :=
  ∀ w ∈ ws, i < w.1 ∨ w.1 + w.2.length ≤ i

theorem storeAll_spec {ws : List (ℕ × List β)} (hin : ∀ w ∈ ws, w.1 + w.2.length ≤ m.length) :
    ∃ m', storeAll m ws = some m' ∧ m'.length = m.length ∧
      ∀ i, Untouched i ws → m'[i]? = m[i]? := by
  induction ws generalizing m with
  | nil => exact ⟨m, rfl, rfl, fun _ _ => rfl⟩
  | cons w ws ih =>
    obtain ⟨hw, hws⟩ := List.forall_mem_cons.mp hin
    obtain ⟨m₁, hstore, hframe, -⟩ := store_spec hw
    obtain ⟨m₂, hall, hlen, hout⟩ := ih (m := m₁) (by rwa [hframe.length])
    refine ⟨m₂, by rw [storeAll_cons, hstore]; exact hall, hlen.trans hframe.length, ?_⟩
    intro i hi
    obtain ⟨hiw, hiws⟩ := List.forall_mem_cons.mp hi
    rw [hout i hiws, hframe.outside i hiw]

theorem Holds.storeAll {ws : List (ℕ × List β)} (h : Holds m off bs)
    (hstore : storeAll m ws = some m')
    (hdisj : ∀ w ∈ ws, off + bs.length ≤ w.1 ∨ w.1 + w.2.length ≤ off) : Holds m' off bs := by
  induction ws generalizing m with
  | nil =>
    obtain rfl : m = m' := Option.some.inj hstore
    exact h
  | cons w ws ih =>
    obtain ⟨hw, hws⟩ := List.forall_mem_cons.mp hdisj
    rw [storeAll_cons, Option.bind_eq_some_iff] at hstore
    obtain ⟨m₁, hw₁, hrest⟩ := hstore
    obtain ⟨hframe, -⟩ := store_some hw₁
    exact ih (h.frame hframe hw) hrest hws

/-- A part that later stores do not overlap. -/
theorem holds_storeAll {ws ws' : List (ℕ × List β)} {w : ℕ × List β}
    (h : storeAll m (ws ++ w :: ws') = some m')
    (hdisj : ∀ w' ∈ ws', w.1 + w.2.length ≤ w'.1 ∨ w'.1 + w'.2.length ≤ w.1) :
    Holds m' w.1 w.2 := by
  rw [storeAll_append, Option.bind_eq_some_iff] at h
  obtain ⟨m₁, -, h⟩ := h
  rw [storeAll_cons, Option.bind_eq_some_iff] at h
  obtain ⟨m₂, hstore, h⟩ := h
  exact (store_some hstore).2.storeAll h hdisj

/-- Parts that do not overlap all hold what has been written to them. -/
theorem holds_of_pairwise {ws : List (ℕ × List β)} (h : storeAll m ws = some m')
    (hdisj : ws.Pairwise fun w w' => w.1 + w.2.length ≤ w'.1 ∨ w'.1 + w'.2.length ≤ w.1)
    {w : ℕ × List β} (hw : w ∈ ws) : Holds m' w.1 w.2 := by
  obtain ⟨ws₁, ws₂, rfl⟩ := List.append_of_mem hw
  apply holds_storeAll h
  have hlater := (List.pairwise_append.mp hdisj).2.1
  exact (List.pairwise_cons.mp hlater).1

theorem store_set {k : ℕ} (hk : k < off ∨ off + bs.length ≤ k) (b : β) :
    store (m.set k b) off bs = (store m off bs).map (·.set k b) := by
  by_cases hle : off + bs.length ≤ m.length
  · obtain ⟨m₁, h₁, hframe, -⟩ := store_spec hle
    obtain ⟨m₂, h₂, -⟩ : ∃ m₂, store (m.set k b) off bs = some m₂ ∧
        Frame (m.set k b) m₂ off bs.length ∧ Holds m₂ off bs :=
      store_spec (by rwa [List.length_set])
    rw [h₁, h₂, Option.map_some]
    refine congrArg some (List.ext_getElem? fun i => ?_)
    rw [getElem?_store h₂, List.getElem?_set, List.getElem?_set, hframe.length, getElem?_store h₁]
    by_cases hki : k = i
    · subst hki
      rw [if_neg (by omega), if_pos rfl, if_pos rfl]
    · rw [if_neg hki, if_neg hki]
  · rw [store, store, List.length_set, if_neg hle, if_neg hle]
    rfl

/-- Stores do not see a cell that they do not touch. -/
theorem storeAll_set {ws : List (ℕ × List β)} {k : ℕ} (hk : Untouched k ws) (b : β) :
    storeAll (m.set k b) ws = (storeAll m ws).map (·.set k b) := by
  induction ws generalizing m with
  | nil => rfl
  | cons w ws ih =>
    obtain ⟨hw, hws⟩ := List.forall_mem_cons.mp hk
    rw [storeAll_cons, storeAll_cons, store_set hw]
    cases store m w.1 w.2 with
    | none => rfl
    | some m₁ => exact ih hws

theorem load_set (m : List β) (off n k : ℕ) (b : β) :
    load (m.set (off + k) b) off n = (load m off n).map (·.set k b) := by
  unfold load
  rw [List.length_set]
  split_ifs with h
  · rw [Option.map_some, List.drop_set, if_neg (by omega), Nat.add_sub_cancel_left, List.take_set]
  · rfl

end Cells

/-! ## Little-endian numbers -/

/-- The number in `w` bytes. -/
def leBytes : ℕ → ℕ → List UInt8
  | 0, _ => []
  | w + 1, n => UInt8.ofNat n :: leBytes w (n / 256)

def leValue : List UInt8 → ℕ
  | [] => 0
  | b :: bs => b.toNat + 256 * leValue bs

@[simp] theorem length_leBytes (w n : ℕ) : (leBytes w n).length = w := by
  induction w generalizing n with
  | zero => rfl
  | succ w ih => rw [leBytes, List.length_cons, ih]

theorem leValue_leBytes (w n : ℕ) : leValue (leBytes w n) = n % 256 ^ w := by
  induction w generalizing n with
  | zero => rw [pow_zero, Nat.mod_one]; rfl
  | succ w ih =>
    rw [leBytes, leValue, ih, pow_succ', Nat.mod_mul]
    rfl

theorem leValue_leBytes_of_lt {w n : ℕ} (h : n < 256 ^ w) : leValue (leBytes w n) = n := by
  rw [leValue_leBytes, Nat.mod_eq_of_lt h]

theorem leBytes_zero (w : ℕ) : leBytes w 0 = List.replicate w 0 := by
  induction w with
  | zero => rfl
  | succ w ih =>
    rw [leBytes, Nat.zero_div, ih]
    rfl

/-- A 32-bit number. -/
def intBytes (v : BitVec 32) : List UInt8 := leBytes 4 v.toNat

def ofIntBytes (bs : List UInt8) : BitVec 32 := BitVec.ofNat 32 (leValue bs)

@[simp] theorem length_intBytes (v : BitVec 32) : (intBytes v).length = 4 := length_leBytes 4 _

theorem ofIntBytes_intBytes (v : BitVec 32) : ofIntBytes (intBytes v) = v := by
  have hlt : v.toNat < 256 ^ 4 := v.isLt
  rw [ofIntBytes, intBytes, leValue_leBytes_of_lt hlt, BitVec.ofNat_toNat, BitVec.setWidth_eq]

def loadInt (m : List UInt8) (off : ℕ) : Option (BitVec 32) := (load m off 4).map ofIntBytes

/-- Consecutive 32-bit numbers. -/
def storeInts : List UInt8 → ℕ → List (BitVec 32) → Option (List UInt8)
  | m, _, [] => some m
  | m, off, v :: vs => (store m off (intBytes v)).bind fun m => storeInts m (off + 4) vs

def loadInts (m : List UInt8) : ℕ → ℕ → Option (List (BitVec 32))
  | _, 0 => some []
  | off, n + 1 => (loadInt m off).bind fun v => (loadInts m (off + 4) n).map (v :: ·)

section Ints

variable {m : List UInt8} {off : ℕ} {v : BitVec 32} {vs : List (BitVec 32)}

theorem length_flatMap_intBytes (vs : List (BitVec 32)) :
    (vs.flatMap intBytes).length = 4 * vs.length := by
  induction vs with
  | nil => rfl
  | cons v vs ih =>
    rw [List.flatMap_cons, List.length_append, length_intBytes, ih, List.length_cons]
    omega

theorem loadInt_eq (h : Holds m off (intBytes v)) (hle : off + 4 ≤ m.length) :
    loadInt m off = some v := by
  have hload := load_eq h (by rwa [length_intBytes])
  rw [length_intBytes] at hload
  rw [loadInt, hload, Option.map_some, ofIntBytes_intBytes]

theorem storeInts_spec (h : off + 4 * vs.length ≤ m.length) :
    ∃ m', storeInts m off vs = some m' ∧ Frame m m' off (4 * vs.length) ∧
      Holds m' off (vs.flatMap intBytes) := by
  induction vs generalizing m off with
  | nil => exact ⟨m, rfl, Frame.refl m off _, fun i hi => absurd hi (Nat.not_lt_zero i)⟩
  | cons v vs ih =>
    rw [List.length_cons] at h
    obtain ⟨m₁, hstore, hframe, hholds⟩ : ∃ m₁, store m off (intBytes v) = some m₁ ∧
        Frame m m₁ off (intBytes v).length ∧ Holds m₁ off (intBytes v) :=
      store_spec (by rw [length_intBytes]; omega)
    rw [length_intBytes] at hframe
    obtain ⟨m₂, hrest, hframe', hholds'⟩ := @ih m₁ (off + 4) (by rw [hframe.length]; omega)
    refine ⟨m₂, ?_, ?_, ?_⟩
    · rw [storeInts, hstore]
      exact hrest
    · rw [List.length_cons]
      exact (hframe.mono le_rfl (by omega)).trans (hframe'.mono (by omega) (by omega))
    · rw [List.flatMap_cons]
      refine (hholds.frame hframe' (.inl ?_)).append ?_
      · rw [length_intBytes]
      · rwa [length_intBytes]

theorem loadInts_eq (h : Holds m off (vs.flatMap intBytes)) (hle : off + 4 * vs.length ≤ m.length) :
    loadInts m off vs.length = some vs := by
  induction vs generalizing off with
  | nil => rfl
  | cons v vs ih =>
    rw [List.flatMap_cons] at h
    rw [List.length_cons] at hle
    have hrest := h.right
    rw [length_intBytes] at hrest
    rw [List.length_cons, loadInts, loadInt_eq h.left (by omega), Option.bind_some,
      ih hrest (by omega), Option.map_some]

end Ints

end Tlpi.Lib.Memory
