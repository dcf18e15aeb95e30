import Mathlib.Tactic

/-! Programs that end at the first call that fails. Which calls fail is an input of the program. The
state outlives the program, so that it matters in which state an error leaves it. -/

namespace Tlpi.Lib

/-- A program with the state `σ` whose error is a text. The list says of each of the next calls
whether it fails; behind its end, no call does. -/
abbrev Faulty (σ : Type) : Type → Type := EStateM String (σ × List Bool)

namespace Faulty

variable {σ α β : Type}

/-- A call that does nothing but fail. -/
def call (name : String) : Faulty σ Unit
  | (s, true :: faults) => .error name (s, faults)
  | (s, false :: faults) => .ok () (s, faults)
  | (s, []) => .ok () (s, [])

def read (f : σ → α) : Faulty σ α := fun w => .ok (f w.1) w

def update (f : σ → σ) : Faulty σ Unit := fun w => .ok () (f w.1, w.2)

/-- An error leaves the state alone, and without an error the program does what `r` says. If `r` is
defined and no call fails, there is no error. -/
structure Commits (x : Faulty σ α) (r : σ → Option (α × σ)) : Prop where
  safe : ∀ s faults, (∃ a s' faults', r s = some (a, s') ∧ x (s, faults) = .ok a (s', faults')) ∨
    ∃ e faults', x (s, faults) = .error e (s, faults')
  live : ∀ s a s', r s = some (a, s') →
    ∃ k, ∀ rest, x (s, List.replicate k false ++ rest) = .ok a (s', rest)

/-- The program does not change the state. -/
abbrev Reads (x : Faulty σ α) (f : σ → Option α) : Prop := Commits x fun s => (f s).map (·, s)

/-- The program has a result that does not depend on the state. -/
abbrev Gives (x : Faulty σ α) (a : α) : Prop := Reads x fun _ => some a

theorem bind_ok {x : Faulty σ α} {y : α → Faulty σ β} {w w' : σ × List Bool} {a : α}
    (h : x w = .ok a w') : (x >>= y) w = y a w' := by
  show EStateM.bind x y w = _
  rw [EStateM.bind, h]

theorem bind_error {x : Faulty σ α} {y : α → Faulty σ β} {w w' : σ × List Bool} {e : String}
    (h : x w = .error e w') : (x >>= y) w = .error e w' := by
  show EStateM.bind x y w = _
  rw [EStateM.bind, h]

theorem bind_eq_ok {x : Faulty σ α} {y : α → Faulty σ β} {w w'' : σ × List Bool} {b : β}
    (h : (x >>= y) w = .ok b w'') : ∃ a w', x w = .ok a w' ∧ y a w' = .ok b w'' := by
  cases hx : x w with
  | ok a w' => exact ⟨a, w', rfl, (bind_ok hx).symm.trans h⟩
  | error e w' => cases (bind_error hx).symm.trans h

theorem gives_pure (a : α) : Gives (pure a : Faulty σ α) a where
  safe s faults := .inl ⟨a, s, faults, rfl, rfl⟩
  live := by
    rintro s _ _ ⟨⟩
    exact ⟨0, fun rest => rfl⟩

theorem gives_call (name : String) : Gives (call name : Faulty σ Unit) () where
  safe := by
    intro s faults
    match faults with
    | true :: faults => exact .inr ⟨name, faults, rfl⟩
    | false :: faults => exact .inl ⟨(), s, faults, rfl, rfl⟩
    | [] => exact .inl ⟨(), s, [], rfl, rfl⟩
  live := by
    rintro s _ _ ⟨⟩
    exact ⟨1, fun rest => rfl⟩

theorem reads_read (f : σ → α) : Reads (read f) fun s => some (f s) where
  safe s faults := .inl ⟨f s, s, faults, rfl, rfl⟩
  live := by
    rintro s _ _ ⟨⟩
    exact ⟨0, fun rest => rfl⟩

theorem commits_update (f : σ → σ) : Commits (update f) fun s => some ((), f s) where
  safe s faults := .inl ⟨(), f s, faults, rfl, rfl⟩
  live := by
    rintro s _ _ ⟨⟩
    exact ⟨0, fun rest => rfl⟩

theorem commits_throw (e : String) : Commits (throw e : Faulty σ α) fun _ => none where
  safe s faults := .inr ⟨e, faults, rfl⟩
  live := by
    rintro s _ _ ⟨⟩

/-- What comes before the commit only reads. -/
theorem Reads.bind {x : Faulty σ α} {f : σ → Option α} {y : α → Faulty σ β}
    {r : α → σ → Option (β × σ)} (hx : Reads x f)
    (hy : ∀ s a, f s = some a → Commits (y a) (r a)) :
    Commits (x >>= y) fun s => (f s).bind fun a => r a s where
  safe := by
    intro s faults
    rcases hx.safe s faults with ⟨a, s', faults', hf, hok⟩ | ⟨e, faults', herror⟩
    · obtain ⟨a', hfa, heq⟩ := Option.map_eq_some_iff.mp hf
      obtain ⟨rfl, rfl⟩ := Prod.mk.inj heq
      rw [bind_ok hok, hfa, Option.bind_some]
      exact (hy s a' hfa).safe s faults'
    · exact .inr ⟨e, faults', bind_error herror⟩
  live := by
    intro s b s' h
    obtain ⟨a, hfa, hr⟩ := Option.bind_eq_some_iff.mp h
    obtain ⟨k, hk⟩ := hx.live s a s (by rw [hfa, Option.map_some])
    obtain ⟨k', hk'⟩ := (hy s a hfa).live s b s' hr
    refine ⟨k + k', ?_⟩
    intro rest
    rw [List.replicate_add, List.append_assoc, bind_ok (hk _)]
    exact hk' rest

theorem Gives.bind {x : Faulty σ α} {a : α} {y : α → Faulty σ β} {r : σ → Option (β × σ)}
    (hx : Gives x a) (hy : Commits (y a) r) : Commits (x >>= y) r := by
  apply Reads.bind hx (r := fun _ => r)
  rintro s _ ⟨⟩
  exact hy

/-- Behind the commit there is nothing that can fail. -/
theorem Commits.bind_pure {x : Faulty σ α} {a : α} {b : β} {r : σ → σ}
    (h : Commits x fun s => some (a, r s)) :
    Commits (x >>= fun _ => pure b) fun s => some (b, r s) where
  safe := by
    intro s faults
    rcases h.safe s faults with ⟨a', s', faults', hr, hok⟩ | ⟨e, faults', herror⟩
    · cases hr
      exact .inl ⟨b, r s, faults', rfl, bind_ok hok⟩
    · exact .inr ⟨e, faults', bind_error herror⟩
  live := by
    rintro s _ _ ⟨⟩
    obtain ⟨k, hk⟩ := h.live s a (r s) rfl
    exact ⟨k, fun rest => bind_ok (hk rest)⟩

/-- Nothing is done behind an error. -/
theorem Commits.bind_none {x : Faulty σ α} {y : α → Faulty σ β} (h : Commits x fun _ => none) :
    Commits (x >>= y) fun _ => none where
  safe := by
    intro s faults
    rcases h.safe s faults with ⟨a, s', faults', hr, -⟩ | ⟨e, faults', herror⟩
    · cases hr
    · exact .inr ⟨e, faults', bind_error herror⟩
  live := by
    rintro s _ _ ⟨⟩

theorem Commits.of_ok {x : Faulty σ α} {r : σ → Option (α × σ)} (h : Commits x r)
    {w w' : σ × List Bool} {a : α} (hok : x w = .ok a w') : r w.1 = some (a, w'.1) := by
  rcases h.safe w.1 w.2 with ⟨a', s', faults', hr, hok'⟩ | ⟨e, faults', herror⟩
  · cases hok'.symm.trans hok
    exact hr
  · cases herror.symm.trans hok

theorem Commits.error_unchanged {x : Faulty σ α} {r : σ → Option (α × σ)} (h : Commits x r)
    {w w' : σ × List Bool} {e : String} (herror : x w = .error e w') : w'.1 = w.1 := by
  rcases h.safe w.1 w.2 with ⟨a, s', faults', -, hok⟩ | ⟨e', faults', herror'⟩
  · cases hok.symm.trans herror
  · cases herror'.symm.trans herror
    rfl

/-- A call that fails behind the commit does not undo it. -/
theorem Commits.error_behind {x : Faulty σ α} {r : σ → Option (α × σ)} (h : Commits x r)
    {y : α → Faulty σ β} {s s' : σ} {a : α} (hr : r s = some (a, s')) {e : String}
    (hy : ∀ faults, y a (s', true :: faults) = .error e (s', faults)) :
    ∃ faults, (x >>= y) (s, faults) = .error e (s', []) := by
  obtain ⟨k, hk⟩ := h.live s a s' hr
  refine ⟨List.replicate k false ++ [true], ?_⟩
  rw [bind_ok (hk [true])]
  exact hy []

/-! ## Parts of the state that remain -/

/-- A part of the state is the same before and behind the program. -/
def Keeps (p : σ → β) (x : Faulty σ α) : Prop :=
  ∀ w a w', x w = .ok a w' → p w'.1 = p w.1

variable {γ : Type} {p : σ → γ}

theorem Commits.keeps {x : Faulty σ α} {r : σ → Option (α × σ)} (h : Commits x r)
    (hr : ∀ s a s', r s = some (a, s') → p s' = p s) : Keeps p x := by
  intro w a w' hok
  rcases h.safe w.1 w.2 with ⟨a', s', faults', hs, hok'⟩ | ⟨e, faults', herror⟩
  · cases hok'.symm.trans hok
    exact hr w.1 a s' hs
  · cases herror.symm.trans hok

theorem Commits.keeps_of_reads {x : Faulty σ α} {f : σ → Option α} (h : Reads x f) :
    Keeps p x := by
  apply h.keeps
  intro s a s' hs
  obtain ⟨_, -, heq⟩ := Option.map_eq_some_iff.mp hs
  cases heq
  rfl

theorem Keeps.bind {x : Faulty σ α} {y : α → Faulty σ β} (hx : Keeps p x)
    (hy : ∀ a, Keeps p (y a)) : Keeps p (x >>= y) := by
  intro w b w' hok
  cases hw : x w with
  | ok a w₁ =>
    rw [bind_ok hw] at hok
    exact (hy a w₁ b w' hok).trans (hx w a w₁ hw)
  | error e w₁ =>
    rw [bind_error hw] at hok
    cases hok

theorem Keeps.foldlM {ι : Type} {f : α → ι → Faulty σ α} {l : List ι}
    (h : ∀ a, ∀ i ∈ l, Keeps p (f a i)) {a : α} : Keeps p (l.foldlM f a) := by
  induction l generalizing a with
  | nil => exact (gives_pure a).keeps_of_reads
  | cons i l ih =>
    rw [List.foldlM_cons]
    refine (h a i List.mem_cons_self).bind fun b => ?_
    exact ih fun a j hj => h a j (List.mem_cons_of_mem i hj)

theorem Keeps.forM {ι : Type} {f : ι → Faulty σ PUnit} {l : List ι}
    (h : ∀ i ∈ l, Keeps p (f i)) : Keeps p (l.forM f) := by
  induction l with
  | nil => exact (gives_pure _).keeps_of_reads
  | cons i l ih =>
    show Keeps p (f i >>= fun _ => l.forM f)
    refine (h i List.mem_cons_self).bind fun _ => ?_
    exact ih fun j hj => h j (List.mem_cons_of_mem i hj)

end Faulty

end Tlpi.Lib
