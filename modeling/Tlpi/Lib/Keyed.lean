import Mathlib.Data.List.Nodup

/-! Lists in which each entry has a key. An entry is changed or deleted by its key; an entry with a
new key is put behind the others. -/

namespace Tlpi.Lib

variable {α β κ γ σ : Type} [DecidableEq κ]

/-- The first entry with the key `k` is changed, and `new` is added if there is none. -/
def upsert (key : α → κ) (k : κ) (f : α → α) (new : α) : List α → List α
  | [] => [new]
  | a :: l => if key a = k then f a :: l else a :: upsert key k f new l

def atKey (key : α → κ) (k : κ) (l : List α) : List α := l.filter (key · = k)

variable {key : α → κ} {k k' : κ} {f : α → α} {new : α} {l : List α}

theorem atKey_cons_self {a : α} (h : key a = k) : atKey key k (a :: l) = a :: atKey key k l :=
  List.filter_cons_of_pos (decide_eq_true h)

theorem atKey_cons_of_ne {a : α} (h : key a ≠ k) : atKey key k (a :: l) = atKey key k l :=
  List.filter_cons_of_neg fun heq => h (of_decide_eq_true heq)

theorem atKey_eq_nil (h : k ∉ l.map key) : atKey key k l = [] := by
  apply List.filter_eq_nil_iff.mpr
  intro a ha heq
  exact h (List.mem_map.mpr ⟨a, ha, of_decide_eq_true heq⟩)

/-- Entries with other keys do not matter. -/
theorem atKey_map (h : ∀ a, f a = a ∨ key a ≠ k ∧ key (f a) ≠ k) :
    atKey key k (l.map f) = atKey key k l := by
  induction l with
  | nil => rfl
  | cons a l ih =>
    rw [List.map_cons]
    rcases h a with hsame | ⟨hne, hne'⟩
    · rw [hsame]
      unfold atKey at ih ⊢
      rw [List.filter_cons, List.filter_cons, ih]
    · rw [atKey_cons_of_ne hne, atKey_cons_of_ne hne', ih]

theorem upsert_of_notMem (h : k ∉ l.map key) : upsert key k f new l = l ++ [new] := by
  induction l with
  | nil => rfl
  | cons a l ih =>
    obtain ⟨hne, hmem⟩ := not_or.mp (List.mem_cons.not.mp h)
    rw [upsert, if_neg (Ne.symm hne), ih hmem, List.cons_append]

section Upsert

variable (hf : ∀ a, key (f a) = key a) (hnew : key new = k)
include hf hnew

theorem map_key_upsert :
    (upsert key k f new l).map key = if k ∈ l.map key then l.map key else l.map key ++ [k] := by
  induction l with
  | nil => exact congrArg (· :: []) hnew
  | cons a l ih =>
    rw [upsert]
    by_cases ha : key a = k
    · rw [if_pos ha, if_pos (ha ▸ List.mem_cons_self), List.map_cons, hf, List.map_cons]
    · have hmem : k ∈ (a :: l).map key ↔ k ∈ l.map key := by
        rw [List.map_cons, List.mem_cons, or_iff_right (Ne.symm ha)]
      rw [if_neg ha, List.map_cons, ih]
      simp only [hmem]
      split_ifs <;> rfl

theorem nodup_upsert (h : (l.map key).Nodup) : ((upsert key k f new l).map key).Nodup := by
  rw [map_key_upsert hf hnew]
  split_ifs with hmem
  · exact h
  · exact List.nodup_append.mpr ⟨h, List.nodup_singleton k, by
      intro a ha b hb heq
      exact hmem (List.mem_singleton.mp hb ▸ heq ▸ ha)⟩

theorem atKey_upsert_of_ne (hne : k' ≠ k) :
    atKey key k' (upsert key k f new l) = atKey key k' l := by
  induction l with
  | nil => exact atKey_cons_of_ne fun heq => hne (heq.symm.trans hnew)
  | cons a l ih =>
    rw [upsert]
    by_cases ha : key a = k
    · have ha' : key a ≠ k' := fun heq => hne (heq.symm.trans ha)
      rw [if_pos ha, atKey_cons_of_ne ha', atKey_cons_of_ne ((hf a).trans_ne ha')]
    · rw [if_neg ha]
      unfold atKey at ih ⊢
      rw [List.filter_cons, List.filter_cons, ih]

/-- The key has one entry, either the new one or one that has been changed. -/
theorem atKey_upsert_self (h : (l.map key).Nodup) :
    ∃ a, atKey key k (upsert key k f new l) = [a] ∧ (a = new ∨ ∃ b, a = f b) := by
  induction l with
  | nil => exact ⟨new, atKey_cons_self hnew, .inl rfl⟩
  | cons a l ih =>
    obtain ⟨hfresh, hnodup⟩ := List.nodup_cons.mp h
    rw [upsert]
    by_cases ha : key a = k
    · rw [if_pos ha, atKey_cons_self ((hf a).trans ha), atKey_eq_nil (ha ▸ hfresh)]
      exact ⟨f a, rfl, .inr ⟨a, rfl⟩⟩
    · rw [if_neg ha, atKey_cons_of_ne ha]
      exact ih hnodup

end Upsert

/-! ## Deleted entries -/

theorem atKey_eraseP_of_ne (hne : k' ≠ k) :
    atKey key k' (l.eraseP (key · = k)) = atKey key k' l := by
  induction l with
  | nil => rfl
  | cons a l ih =>
    by_cases ha : key a = k
    · have ha' : key a ≠ k' := fun heq => hne (heq.symm.trans ha)
      rw [List.eraseP_cons_of_pos (by simpa using ha), atKey_cons_of_ne ha']
    · rw [List.eraseP_cons_of_neg (by simpa using ha)]
      unfold atKey at ih ⊢
      rw [List.filter_cons, List.filter_cons, ih]

theorem atKey_eraseP_self (h : (l.map key).Nodup) :
    atKey key k (l.eraseP (key · = k)) = [] := by
  induction l with
  | nil => rfl
  | cons a l ih =>
    obtain ⟨hfresh, hnodup⟩ := List.nodup_cons.mp h
    by_cases ha : key a = k
    · rw [List.eraseP_cons_of_pos (by simpa using ha)]
      exact atKey_eq_nil (ha ▸ hfresh)
    · rw [List.eraseP_cons_of_neg (by simpa using ha), atKey_cons_of_ne ha]
      exact ih hnodup

/-! ## The last one counts -/

def lastAt (key : β → κ) (k : κ) (xs : List β) : Option β := (atKey key k xs).getLast?

theorem lastAt_eq_none_iff {key : β → κ} {xs : List β} :
    lastAt key k xs = none ↔ k ∉ xs.map key := by
  unfold lastAt
  rw [List.getLast?_eq_none_iff]
  constructor
  · intro hnil hmem
    obtain ⟨x, hx, hkey⟩ := List.mem_map.mp hmem
    exact List.filter_eq_nil_iff.mp hnil x hx (decide_eq_true hkey)
  · exact atKey_eq_nil

/-- If each step sets what is seen of the state or leaves it alone, according to its key, the state
at the end shows what the last step with the key has set. -/
theorem foldl_lastAt {step : σ → β → σ} {look : σ → γ} {set : β → γ} {key : β → κ} {I : σ → Prop}
    (hinv : ∀ s x, I s → I (step s x))
    (hstep : ∀ s x, I s → look (step s x) = if k = key x then set x else look s)
    {s : σ} (hs : I s) (xs : List β) :
    look (xs.foldl step s) = (lastAt key k xs).elim (look s) set := by
  induction xs generalizing s with
  | nil => rfl
  | cons x xs ih =>
    rw [List.foldl_cons, ih (hinv s x hs), hstep s x hs]
    unfold lastAt
    by_cases hx : k = key x
    · rw [if_pos hx, atKey_cons_self hx.symm, List.getLast?_cons]
      cases (atKey key k xs).getLast? <;> rfl
    · rw [if_neg hx, atKey_cons_of_ne (Ne.symm hx)]

end Tlpi.Lib
