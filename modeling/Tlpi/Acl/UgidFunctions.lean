import Tlpi.Acl.ParseACL

/-! The IDs that `users_groups/ugid_functions.c` returns for names and numerals. A numeral becomes a
`long` and then, with no check of its range, an ID of 32 bits. -/

namespace Tlpi.Acl
open Lib

/-- The largest ID is the error value. -/
def IsId (v : ℤ) : Prop := 0 ≤ v ∧ v < 2 ^ 32 - 1

/-- A numeral stands for its value if this is an ID, and is an error otherwise. Any other name is
looked up. -/
def IdOf (lookup : List Char → Option (BitVec 32)) (name : List Char) (id : BitVec 32) : Prop :=
  (∀ n : Numeral, n.text = name →
    (IsId n.value → (id.toNat : ℤ) = n.value) ∧ (¬IsId n.value → id = -1)) ∧
  ((¬∃ n : Numeral, n.text = name) → id = (lookup name).getD (-1))

/-- The numbers that become the error value: those that are too large for a `long`, and those whose
lower 32 bits are ones. -/
def BecomesError (v : ℤ) : Prop := LONG_MAX < v ∨ LONG_MIN ≤ v ∧ v % 2 ^ 32 = 2 ^ 32 - 1

theorem ofInt_eq_error_iff (v : ℤ) : BitVec.ofInt 32 v = -1 ↔ v % 2 ^ 32 = 2 ^ 32 - 1 := by
  rw [← BitVec.toNat_inj, BitVec.toNat_ofInt]
  have herror : (-1 : BitVec 32).toNat = 2 ^ 32 - 1 := rfl
  rw [herror]
  omega

theorem toNat_ofInt_of_isId {v : ℤ} (h : IsId v) : ((BitVec.ofInt 32 v).toNat : ℤ) = v := by
  obtain ⟨h0, hlt⟩ := h
  rw [BitVec.toNat_ofInt]
  omega

theorem clampLong_value_of_isId {v : ℤ} (h : IsId v) : (clampLong v []).value = v := by
  have hfits : LONG_MIN ≤ v ∧ v ≤ LONG_MAX := by
    obtain ⟨h0, hlt⟩ := h
    unfold LONG_MIN LONG_MAX
    omega
  rw [clampLong_of_fits hfits]

theorem clampLong_becomesError_iff (v : ℤ) :
    BitVec.ofInt 32 (clampLong v []).value = -1 ↔ BecomesError v := by
  rw [ofInt_eq_error_iff]
  unfold clampLong BecomesError
  split_ifs with hmax hmin
  · exact iff_of_true rfl (.inl hmax)
  · have hzero : ¬LONG_MIN % 2 ^ 32 = 2 ^ 32 - 1 := by decide
    exact iff_of_false hzero fun hor => hor.elim hmax fun hand => absurd hand.1 (not_le.mpr hmin)
  · rw [or_iff_right hmax, and_iff_right (not_lt.mp hmin)]

theorem idFromName_text (lookup : List Char → Option (BitVec 32)) (n : Numeral) :
    idFromName lookup n.text = BitVec.ofInt 32 (clampLong n.value []).value := by
  rw [idFromName, if_neg n.text_ne_nil, n.strtol_text, if_pos (clampLong_rest _ _)]

theorem idFromName_of_not_numeral (lookup : List Char → Option (BitVec 32)) {name : List Char}
    (hname : name ≠ []) (hnot : ¬∃ n : Numeral, n.text = name) :
    idFromName lookup name = (lookup name).getD (-1) := by
  rw [idFromName, if_neg hname, if_neg (mt (strtol_rest_eq_nil_iff hname).mp hnot)]

theorem idOf_idFromName_iff (lookup : List Char → Option (BitVec 32)) (name : List Char) :
    IdOf lookup name (idFromName lookup name) ↔
      (∀ n : Numeral, n.text = name → IsId n.value ∨ BecomesError n.value) ∧
      (name = [] → (lookup []).getD (-1) = -1) := by
  unfold IdOf
  apply and_congr
  · refine forall_congr' fun n => forall_congr' fun htext => ?_
    subst htext
    rw [idFromName_text]
    by_cases hid : IsId n.value
    · rw [clampLong_value_of_isId hid]
      exact iff_of_true ⟨fun _ => toNat_ofInt_of_isId hid, absurd hid⟩ (.inl hid)
    · rw [clampLong_becomesError_iff]
      constructor
      · exact fun h => .inr (h.2 hid)
      · exact fun h => ⟨fun h' => absurd h' hid, fun _ => h.resolve_left hid⟩
  · by_cases hname : name = []
    · subst hname
      have hnot : ¬∃ n : Numeral, n.text = [] := fun h => h.elim fun n => n.text_ne_nil
      constructor
      · exact fun h _ => (h hnot).symm
      · exact fun h _ => (h rfl).symm
    · exact iff_of_true (idFromName_of_not_numeral lookup hname) (absurd · hname)

theorem ugid_numeral_iff (db : Database) (name : List Char) :
    (IdOf db.getpwnam name (userIdFromName db name) ↔
      (∀ n : Numeral, n.text = name → IsId n.value ∨ BecomesError n.value) ∧
      (name = [] → (db.getpwnam []).getD (-1) = -1)) ∧
    (IdOf db.getgrnam name (groupIdFromName db name) ↔
      (∀ n : Numeral, n.text = name → IsId n.value ∨ BecomesError n.value) ∧
      (name = [] → (db.getgrnam []).getD (-1) = -1)) :=
  ⟨idOf_idFromName_iff db.getpwnam name, idOf_idFromName_iff db.getgrnam name⟩

/-- The number behind the largest one with 32 bits becomes the ID of the superuser. -/
theorem ugid_numeral_wraps :
    userIdFromName ⟨fun _ => none, fun _ => none⟩ "4294967296".toList = 0 ∧
    ¬IdOf (fun _ => none) "4294967296".toList
      (userIdFromName ⟨fun _ => none, fun _ => none⟩ "4294967296".toList) ∧
    ¬IdOf (fun _ => none) "4294967296".toList
      (groupIdFromName ⟨fun _ => none, fun _ => none⟩ "4294967296".toList) := by
  have hdigits : ∀ c ∈ "4294967296".toList, c.isDigit = true := List.all_eq_true.mp rfl
  have hfails : ∀ id : BitVec 32, id ≠ -1 → ¬IdOf (fun _ => none) "4294967296".toList id := by
    intro id hid hid'
    let n : Numeral := ⟨[], [], "4294967296".toList, List.forall_mem_nil _, .inl rfl, hdigits,
      List.cons_ne_nil _ _⟩
    have hvalue : n.value = (digitsValue 10 "4294967296".toList : ℕ) :=
      if_neg (List.cons_ne_nil _ _).symm
    have hnat : digitsValue 10 "4294967296".toList = 4294967296 := by decide
    have hnot : ¬IsId n.value := by
      unfold IsId
      omega
    exact hid ((hid'.1 n rfl).2 hnot)
  exact ⟨by decide, hfails _ (by decide), hfails _ (by decide)⟩

end Tlpi.Acl
