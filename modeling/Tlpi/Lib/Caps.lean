import Mathlib.Data.Finset.Basic
import Mathlib.Data.Finset.Lattice.Basic
import Mathlib.Tactic

/-! The capability sets of a thread on Linux, and the rules by which `capset()`, the ambient set, a
change of the user IDs and `execve()` change them. -/

namespace Tlpi.Lib

@[ext] structure CapSets (κ : Type*) [DecidableEq κ] where
  permitted : Finset κ
  effective : Finset κ
  inheritable : Finset κ
  ambient : Finset κ
  bounding : Finset κ
  effective_subset : effective ⊆ permitted
  ambient_subset : ambient ⊆ permitted ∩ inheritable

/-- The capabilities attached to an executable file. -/
structure FileCaps (κ : Type*) where
  permitted : Finset κ
  inheritable : Finset κ
  effective : Bool
  /-- The file has capabilities, or changes the user or group ID. -/
  privileged : Bool

/-- A file without capabilities that changes no ID. -/
structure FileCaps.Plain {κ : Type*} (f : FileCaps κ) : Prop where
  permitted : f.permitted = ∅
  inheritable : f.inheritable = ∅
  effective : f.effective = false
  privileged : f.privileged = false

namespace CapSets

variable {κ : Type*} [DecidableEq κ]

/-- `capset()`. Only a holder of `setpcap` may add a capability to the inheritable set that is not
permitted. -/
def capset (setpcap : κ) (s : CapSets κ) (permitted effective inheritable : Finset κ) :
    Option (CapSets κ) :=
  if h : (inheritable ⊆ s.inheritable ∪ s.permitted ∨ setpcap ∈ s.effective) ∧
      inheritable ⊆ s.inheritable ∪ s.bounding ∧ permitted ⊆ s.permitted ∧
      effective ⊆ permitted then
    some {
      permitted, effective, inheritable
      ambient := s.ambient ∩ (permitted ∩ inheritable)
      bounding := s.bounding
      effective_subset := h.2.2.2
      ambient_subset := Finset.inter_subset_right }
  else none

/-- `prctl(PR_CAP_AMBIENT, PR_CAP_AMBIENT_RAISE)`. -/
def raiseAmbient (s : CapSets κ) (c : κ) : Option (CapSets κ) :=
  if h : c ∈ s.permitted ∩ s.inheritable then
    some { s with
      ambient := insert c s.ambient
      ambient_subset := Finset.insert_subset h s.ambient_subset }
  else none

/-- Without a permitted, effective or ambient capability. -/
def cleared (s : CapSets κ) : CapSets κ where
  permitted := ∅
  effective := ∅
  inheritable := s.inheritable
  ambient := ∅
  bounding := s.bounding
  effective_subset := Finset.empty_subset _
  ambient_subset := Finset.empty_subset _

/-- The change that all three user IDs, now `ruid`, `euid` and `suid`, become `u`: who leaves root
loses everything but the inheritable set, and who becomes root may use what is permitted. -/
def setuid (s : CapSets κ) (ruid euid suid u : ℕ) : CapSets κ :=
  if (ruid = 0 ∨ euid = 0 ∨ suid = 0) ∧ u ≠ 0 then s.cleared
  else if euid ≠ 0 ∧ u = 0 then
    { s with effective := s.permitted, effective_subset := Finset.Subset.refl _ }
  else s

/-- `execve()`. For root every file counts as one that has all capabilities. -/
def exec (s : CapSets κ) (root : Bool) (f : FileCaps κ) : CapSets κ :=
  let ambient := if f.privileged then ∅ else s.ambient
  let fromFile :=
    if root then s.inheritable ∪ s.bounding
    else s.inheritable ∩ f.inheritable ∪ f.permitted ∩ s.bounding
  let permitted := fromFile ∪ ambient
  { permitted, ambient
    effective := if root || f.effective then permitted else ambient
    inheritable := s.inheritable
    bounding := s.bounding
    effective_subset := by
      split
      · exact Finset.Subset.refl _
      · exact Finset.subset_union_right
    ambient_subset := by
      refine Finset.subset_inter Finset.subset_union_right ?_
      change (if f.privileged then ∅ else s.ambient) ⊆ s.inheritable
      split
      · exact Finset.empty_subset _
      · exact s.ambient_subset.trans Finset.inter_subset_right }

variable {s s' : CapSets κ} {setpcap c : κ}

/-- One more inheritable capability. -/
theorem capset_insert_inheritable (setpcap : κ) (hc : c ∈ s.permitted)
    (hbound : c ∈ s.inheritable ∪ s.bounding) :
    ∃ s', capset setpcap s s.permitted s.effective (insert c s.inheritable) = some s' ∧
      s'.permitted = s.permitted ∧ s'.effective = s.effective ∧
      s'.inheritable = insert c s.inheritable ∧ s'.ambient = s.ambient ∧
      s'.bounding = s.bounding := by
  have hinsert : insert c s.inheritable ⊆ s.inheritable ∪ s.permitted :=
    Finset.insert_subset (Finset.mem_union_right _ hc) Finset.subset_union_left
  have hbound : insert c s.inheritable ⊆ s.inheritable ∪ s.bounding :=
    Finset.insert_subset hbound Finset.subset_union_left
  refine ⟨_, dif_pos ⟨.inl hinsert, hbound, Finset.Subset.refl _, s.effective_subset⟩,
    rfl, rfl, rfl, ?_, rfl⟩
  refine Finset.inter_eq_left.mpr (s.ambient_subset.trans ?_)
  exact Finset.inter_subset_inter_left (Finset.subset_insert c _)

theorem capset_eq_some {permitted effective inheritable : Finset κ}
    (h : capset setpcap s permitted effective inheritable = some s') :
    inheritable ⊆ s.inheritable ∪ s.bounding ∧ permitted ⊆ s.permitted ∧ effective ⊆ permitted ∧
      s'.permitted = permitted ∧ s'.effective = effective ∧ s'.inheritable = inheritable := by
  rw [capset] at h
  split at h
  · next hc =>
    cases h
    exact ⟨hc.2.1, hc.2.2.1, hc.2.2.2, rfl, rfl, rfl⟩
  · cases h

theorem mem_of_raiseAmbient (h : s.raiseAmbient c = some s') :
    c ∈ s.permitted ∩ s.inheritable := by
  rw [raiseAmbient] at h
  split at h
  · assumption
  · cases h

theorem capset_effective (setpcap : κ) {effective : Finset κ} (h : effective ⊆ s.permitted) :
    ∃ s', capset setpcap s s.permitted effective s.inheritable = some s' ∧
      s'.permitted = s.permitted ∧ s'.effective = effective ∧ s'.inheritable = s.inheritable ∧
      s'.ambient = s.ambient := by
  refine ⟨_, dif_pos ⟨.inl Finset.subset_union_left, Finset.subset_union_left, Finset.Subset.refl _,
    h⟩, rfl, rfl, rfl, ?_⟩
  exact Finset.inter_eq_left.mpr s.ambient_subset

/-- To give everything up is always allowed. -/
theorem capset_empty (setpcap : κ) (s : CapSets κ) :
    ∃ s', capset setpcap s ∅ ∅ ∅ = some s' ∧ s'.permitted = ∅ ∧ s'.effective = ∅ ∧
      s'.inheritable = ∅ ∧ s'.ambient = ∅ := by
  refine ⟨_, dif_pos ⟨.inl (Finset.empty_subset _), Finset.empty_subset _, Finset.empty_subset _,
    Finset.Subset.refl _⟩, rfl, rfl, rfl, ?_⟩
  simp

/-- For a user who is not root, a program without privileges has exactly the ambient ones. -/
theorem exec_of_plain (s : CapSets κ) {f : FileCaps κ} (hf : f.Plain) :
    (s.exec false f).permitted = s.ambient ∧ (s.exec false f).effective = s.ambient := by
  simp [exec, hf.permitted, hf.inheritable, hf.effective, hf.privileged]

end CapSets

end Tlpi.Lib
