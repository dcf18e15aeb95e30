import Mathlib.Tactic

/-! The loop that reads a block and writes it out again, over bounded streams of values. A read
takes any positive number of the values that are there, up to the size of the buffer; a write
blocks until all of its block is gone, and moves any part of it for which there is room. -/

namespace Tlpi.Lib

/-- The `k` values that a read of at most `size` takes off the front of a stream, and the rest. -/
def takeBlock {α : Type*} (size k : ℕ) (src : List α) : Option (List α × List α) :=
  if 0 < k ∧ k ≤ size ∧ k ≤ src.length then some (src.take k, src.drop k) else none

/-- Moves `k` values of a block to a stream that has room for `cap` of them. -/
def putBlock {α : Type*} (cap k : ℕ) (block dst : List α) : Option (List α × List α) :=
  if 0 < k ∧ k ≤ block.length ∧ dst.length + k ≤ cap then
    some (block.drop k, dst ++ block.take k)
  else none

/-- A read that takes all that is there, as far as it fits. -/
def readAvailable {α : Type*} (size : ℕ) (src : List α) : Option (List α × List α) :=
  takeBlock size (min size src.length) src

/-- A write that moves the whole block at once or waits. -/
def writeAtomic {α : Type*} (cap : ℕ) (block dst : List α) : Option (List α) :=
  (putBlock cap block.length block dst).map Prod.snd

section Blocks
variable {α : Type*} {size cap k : ℕ} {src dst block block' src' dst' : List α}

theorem takeBlock_eq_some (h : takeBlock size k src = some (block, src')) :
    block ++ src' = src ∧ block ≠ [] ∧ block.length ≤ size := by
  obtain ⟨⟨hk, hsize, hlen⟩, h⟩ := Option.ite_none_right_eq_some.mp h
  obtain ⟨rfl, rfl⟩ := Prod.mk.inj (Option.some.inj h)
  refine ⟨List.take_append_drop k src, fun hnil => ?_, ?_⟩
  · have := congrArg List.length hnil
    simp only [List.length_take, List.length_nil] at this
    omega
  · rw [List.length_take]
    omega

theorem takeBlock_one (hsize : 0 < size) (a : α) (l : List α) :
    takeBlock size 1 (a :: l) = some ([a], l) := by
  simp [takeBlock, Nat.one_le_iff_ne_zero.mpr hsize.ne']

theorem putBlock_eq_some (h : putBlock cap k block dst = some (block', dst')) :
    dst' ++ block' = dst ++ block ∧ block'.length < block.length ∧ dst'.length ≤ cap := by
  obtain ⟨⟨hk, hlen, hcap⟩, h⟩ := Option.ite_none_right_eq_some.mp h
  obtain ⟨rfl, rfl⟩ := Prod.mk.inj (Option.some.inj h)
  refine ⟨?_, ?_, ?_⟩
  · rw [List.append_assoc, List.take_append_drop]
  · rw [List.length_drop]
    omega
  · rw [List.length_append, List.length_take]
    omega

theorem putBlock_one (hcap : 0 < cap) (a : α) (l : List α) :
    putBlock cap 1 (a :: l) [] = some (l, [a]) := by
  simp [putBlock, Nat.one_le_iff_ne_zero.mpr hcap.ne']

theorem readAvailable_of_short (hne : src ≠ []) (hlen : src.length ≤ size) :
    readAvailable size src = some (src, []) := by
  have hpos := List.length_pos_of_ne_nil hne
  rw [readAvailable, Nat.min_eq_right hlen, takeBlock, if_pos ⟨hpos, hlen, le_rfl⟩,
    List.take_length, List.drop_length]

/-- A read of exactly the block at the front. -/
theorem readAvailable_append (hne : block ≠ []) (src : List α) :
    readAvailable block.length (block ++ src) = some (block, src) := by
  have hmin : min block.length (block ++ src).length = block.length := by simp
  rw [readAvailable, hmin, takeBlock,
    if_pos ⟨List.length_pos_of_ne_nil hne, le_rfl, by simp⟩, List.take_left, List.drop_left]

theorem readAvailable_ne_none (hsize : 0 < size) (hne : src ≠ []) :
    readAvailable size src ≠ none := by
  have hpos := List.length_pos_of_ne_nil hne
  rw [readAvailable, takeBlock, if_pos ⟨lt_min hsize hpos, min_le_left _ _, min_le_right _ _⟩]
  exact Option.some_ne_none _

@[simp] theorem readAvailable_nil : readAvailable size ([] : List α) = none := by
  simp [readAvailable, takeBlock]

theorem writeAtomic_eq_some (h : writeAtomic cap block dst = some dst') : dst' = dst ++ block := by
  obtain ⟨⟨rest, q⟩, hr, rfl⟩ := Option.map_eq_some_iff.mp h
  obtain ⟨-, hr⟩ := Option.ite_none_right_eq_some.mp hr
  obtain ⟨-, rfl⟩ := Prod.mk.inj (Option.some.inj hr)
  rw [List.take_length]

theorem writeAtomic_nil (hne : block ≠ []) (hlen : block.length ≤ cap) :
    writeAtomic cap block [] = some block := by
  have hroom : 0 + block.length ≤ cap := by rwa [Nat.zero_add]
  rw [writeAtomic, putBlock, if_pos ⟨List.length_pos_of_ne_nil hne, le_rfl, hroom⟩,
    Option.map_some, List.take_length, List.nil_append]

end Blocks

namespace CopyLoop

/-- Where a copy loop is. A block that is being written is never empty. -/
inductive Pc (α : Type*)
  | read
  | write (first : α) (rest : List α)
  /-- The loop is left. -/
  | done
  | exited
  deriving DecidableEq, Repr

namespace Pc
variable {α : Type*} {pc pc' : Pc α} {size cap k : ℕ} {src dst src' dst' : List α}

/-- The values that are read and not yet written. -/
def held : Pc α → List α
  | .write a l => a :: l
  | _ => []

/-- Back at the read once the whole block is written. -/
def writing : List α → Pc α
  | [] => .read
  | a :: l => .write a l

def left : Pc α → Bool
  | .done | .exited => true
  | _ => false

def fill (size k : ℕ) (pc : Pc α) (src : List α) : Option (Pc α × List α) :=
  match pc with
  | .read => (takeBlock size k src).map fun r => (writing r.1, r.2)
  | _ => none

def flush (cap k : ℕ) (pc : Pc α) (dst : List α) : Option (Pc α × List α) :=
  match pc with
  | .write a l => (putBlock cap k (a :: l) dst).map fun r => (writing r.1, r.2)
  | _ => none

/-- The read that returns no value. -/
def stop : Pc α → Option (Pc α)
  | .read => some .done
  | _ => none

def exit : Pc α → Option (Pc α)
  | .done => some .exited
  | _ => none

@[simp] theorem held_read : (.read : Pc α).held = [] := rfl

@[simp] theorem held_write (a : α) (l : List α) : (.write a l : Pc α).held = a :: l := rfl

@[simp] theorem held_done : (.done : Pc α).held = [] := rfl

@[simp] theorem held_exited : (.exited : Pc α).held = [] := rfl

@[simp] theorem held_writing (l : List α) : (writing l).held = l := by cases l <;> rfl

@[simp] theorem left_writing (l : List α) : (writing l).left = false := by cases l <;> rfl

theorem ne_exited_of_left (h : pc.left = false) : pc ≠ .exited := by
  rintro rfl
  exact absurd h.symm Bool.false_ne_true

/-- What is left to do apart from the values under way. -/
def weight : Pc α → ℕ
  | .done => 1
  | .exited => 0
  | _ => 2

@[simp] theorem weight_read : (.read : Pc α).weight = 2 := rfl

@[simp] theorem weight_done : (.done : Pc α).weight = 1 := rfl

@[simp] theorem weight_exited : (.exited : Pc α).weight = 0 := rfl

@[simp] theorem weight_writing (l : List α) : (writing l).weight = 2 := by cases l <;> rfl

theorem fill_eq_some (h : pc.fill size k src = some (pc', src')) :
    pc = .read ∧ pc'.left = false ∧ pc'.weight = 2 ∧ pc'.held ++ src' = src ∧
      0 < pc'.held.length := by
  cases pc with
  | read =>
    obtain ⟨⟨block, rest⟩, hr, h⟩ := Option.map_eq_some_iff.mp h
    obtain ⟨rfl, rfl⟩ := Prod.mk.inj h
    obtain ⟨happ, hne, -⟩ := takeBlock_eq_some hr
    exact ⟨rfl, left_writing _, weight_writing _, by simpa using happ,
      by simpa using List.length_pos_of_ne_nil hne⟩
  | _ => exact absurd h (by simp [fill])

theorem flush_eq_some (h : pc.flush cap k dst = some (pc', dst')) :
    pc.left = false ∧ pc'.left = false ∧ pc.weight = 2 ∧ pc'.weight = 2 ∧
      dst' ++ pc'.held = dst ++ pc.held ∧ pc'.held.length < pc.held.length := by
  cases pc with
  | write a l =>
    obtain ⟨⟨block, rest⟩, hr, h⟩ := Option.map_eq_some_iff.mp h
    obtain ⟨rfl, rfl⟩ := Prod.mk.inj h
    obtain ⟨happ, hlt, -⟩ := putBlock_eq_some hr
    exact ⟨rfl, left_writing _, rfl, weight_writing _, by simpa using happ, by simpa using hlt⟩
  | _ => exact absurd h (by simp [flush])

theorem stop_eq_some (h : pc.stop = some pc') : pc = .read ∧ pc' = .done := by
  cases pc with
  | read => exact ⟨rfl, (Option.some.inj h).symm⟩
  | _ => exact absurd h (by simp [stop])

theorem exit_eq_some (h : pc.exit = some pc') : pc = .done ∧ pc' = .exited := by
  cases pc with
  | done => exact ⟨rfl, (Option.some.inj h).symm⟩
  | _ => exact absurd h (by simp [exit])

/-- A loop for which neither the next read nor the next write can go on. -/
theorem blocked (size cap : ℕ) (hsize : 0 < size) (hcap : 0 < cap)
    (hfill : ∀ k, pc.fill size k src = none) (hflush : ∀ k, pc.flush cap k dst = none)
    (hexit : pc.exit = none) :
    pc = .read ∧ src = [] ∨ (∃ a l, pc = .write a l) ∧ dst ≠ [] ∨ pc = .exited := by
  cases pc with
  | read =>
    cases src with
    | nil => exact Or.inl ⟨rfl, rfl⟩
    | cons a l => exact absurd (hfill 1) (by simp [fill, takeBlock_one hsize])
  | write a l =>
    cases dst with
    | nil => exact absurd (hflush 1) (by simp [flush, putBlock_one hcap])
    | cons b r => exact Or.inr (Or.inl ⟨⟨a, l, rfl⟩, List.cons_ne_nil b r⟩)
  | done => exact absurd hexit (by simp [exit])
  | exited => exact Or.inr (Or.inr rfl)

end Pc

end CopyLoop

end Tlpi.Lib
