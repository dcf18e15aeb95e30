import Mathlib.Tactic

/-! Rules for programs in `Except` whose errors carry the state in which the program ended: what
holds of the result and of the final state of an early end. -/

namespace Tlpi.Lib

universe u v

variable {ε : Type u} {α β : Type v} {P : α → Prop} {E : ε → Prop}

@[simp] theorem ok_bind (a : α) (f : α → Except ε β) : (Except.ok a >>= f) = f a := rfl

@[simp] theorem error_bind (e : ε) (f : α → Except ε β) :
    ((Except.error e : Except ε α) >>= f) = .error e := rfl

theorem bind_eq_ok_iff {r : Except ε α} {f : α → Except ε β} {b : β} :
    (r >>= f) = .ok b ↔ ∃ a, r = .ok a ∧ f a = .ok b := by
  cases r with
  | ok a => simp
  | error e => simp

/-- A test that ends the program. -/
theorem guard_eq_ok_iff {c : Prop} [Decidable c] {e : ε} {r : Except ε α} {a : α} :
    (if c then .error e else r) = .ok a ↔ ¬ c ∧ r = .ok a := by
  split_ifs with hc <;> simp [hc]

/-- Every result satisfies `P`, every early end satisfies `E`. -/
def Ensures (P : α → Prop) (E : ε → Prop) : Except ε α → Prop
  | .ok a => P a
  | .error e => E e

@[simp] theorem ensures_ok {a : α} : Ensures P E (.ok a) ↔ P a := Iff.rfl

theorem ensures_true (r : Except ε α) : Ensures (fun _ => True) (fun _ => True) r := by
  cases r <;> trivial

theorem Ensures.bind {R : β → Prop} {r : Except ε α} {f : α → Except ε β} (h : Ensures P E r)
    (hf : ∀ a, P a → Ensures R E (f a)) : Ensures R E (r >>= f) := by
  cases r with
  | ok a => exact hf a h
  | error e => exact h

theorem Ensures.foldlM {ι : Type*} {f : α → ι → Except ε α} {l : List ι}
    (hf : ∀ a, ∀ i ∈ l, P a → Ensures P E (f a i)) {a : α} (ha : P a) :
    Ensures P E (l.foldlM f a) := by
  induction l generalizing a with
  | nil => exact ha
  | cons i l ih =>
    rw [List.foldlM_cons]
    refine (hf a i List.mem_cons_self ha).bind fun b hb => ?_
    exact ih (fun a j hj => hf a j (List.mem_cons_of_mem _ hj)) hb

/-- A loop that does not end early, with what holds after each part of the list. -/
theorem foldlM_ok {ι : Type*} {f : α → ι → Except ε α} {l : List ι} {P : List ι → α → Prop}
    (hf : ∀ done, ∀ i ∈ l, ∀ a, P done a → ∃ b, f a i = .ok b ∧ P (done ++ [i]) b) {a : α}
    (ha : P [] a) : ∃ b, l.foldlM f a = .ok b ∧ P l b := by
  induction l using List.reverseRecOn with
  | nil => exact ⟨a, rfl, ha⟩
  | append_singleton l i ih =>
    obtain ⟨b, hb, hPb⟩ := ih fun done j hj => hf done j (List.mem_append_left _ hj)
    obtain ⟨c, hc, hPc⟩ := hf l i (by simp) b hPb
    refine ⟨c, ?_, hPc⟩
    rw [List.foldlM_append, hb, ok_bind, List.foldlM_cons, hc, ok_bind]
    rfl

theorem mapM_ok {ι : Type v} {f : ι → Except ε α} {g : ι → α} {l : List ι}
    (hf : ∀ i ∈ l, f i = .ok (g i)) : l.mapM f = .ok (l.map g) := by
  induction l with
  | nil => rfl
  | cons i l ih =>
    rw [List.mapM_cons, hf i List.mem_cons_self, ok_bind,
      ih fun j hj => hf j (List.mem_cons_of_mem _ hj)]
    rfl

/-- Two programs that run in step, with related results and related early ends. -/
def Related {ε' : Type u} {α' : Type v} (R : α' → α → Prop) (E : ε' → ε → Prop) :
    Except ε' α' → Except ε α → Prop
  | .ok a', .ok a => R a' a
  | .error e', .error e => E e' e
  | _, _ => False

theorem Related.cases {ε' : Type u} {α' : Type v} {R : α' → α → Prop} {E : ε' → ε → Prop}
    {r' : Except ε' α'} {r : Except ε α} (h : Related R E r' r) :
    (∃ a' a, r' = .ok a' ∧ r = .ok a ∧ R a' a) ∨
      ∃ e' e, r' = .error e' ∧ r = .error e ∧ E e' e := by
  cases r' <;> cases r
  · exact .inr ⟨_, _, rfl, rfl, h⟩
  · exact h.elim
  · exact h.elim
  · exact .inl ⟨_, _, rfl, rfl, h⟩

theorem Related.of_ok {ε' : Type u} {α' : Type v} {R : α' → α → Prop} {E : ε' → ε → Prop}
    {r' : Except ε' α'} {a : α} (h : Related R E r' (.ok a)) : ∃ a', r' = .ok a' ∧ R a' a := by
  cases r' with
  | ok a' => exact ⟨a', rfl, h⟩
  | error e' => exact h.elim

theorem Related.bind {ε' : Type u} {α' β' : Type v} {R : α' → α → Prop} {S : β' → β → Prop}
    {E : ε' → ε → Prop} {r' : Except ε' α'} {r : Except ε α} {f' : α' → Except ε' β'}
    {f : α → Except ε β} (h : Related R E r' r)
    (hf : ∀ a' a, R a' a → Related S E (f' a') (f a)) : Related S E (r' >>= f') (r >>= f) := by
  cases r' <;> cases r
  · exact h
  · exact h.elim
  · exact h.elim
  · exact hf _ _ h

theorem Related.foldlM {ε' : Type u} {α' : Type v} {ι : Type*} {R : α' → α → Prop}
    {E : ε' → ε → Prop} {f' : α' → ι → Except ε' α'} {f : α → ι → Except ε α} {l : List ι}
    (hf : ∀ a' a, ∀ i ∈ l, R a' a → Related R E (f' a' i) (f a i)) {a' : α'} {a : α}
    (ha : R a' a) : Related R E (l.foldlM f' a') (l.foldlM f a) := by
  induction l generalizing a' a with
  | nil => exact ha
  | cons i l ih =>
    rw [List.foldlM_cons, List.foldlM_cons]
    refine (hf a' a i List.mem_cons_self ha).bind fun _ _ => ih ?_
    exact fun b' b j hj => hf b' b j (List.mem_cons_of_mem _ hj)

end Tlpi.Lib
