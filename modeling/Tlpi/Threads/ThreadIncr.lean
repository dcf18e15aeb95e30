import Tlpi.Lib.Machine
import Tlpi.Lib.Progress
import Mathlib.Tactic

/-! The two threads of `threads/thread_incr.c`, which increment `glob` without any synchronisation.
A load and a store of the `volatile int` are one step each. -/

namespace Tlpi.Threads.ThreadIncr
open Lib

/-- `INT_MAX`. -/
def intMax : ℕ := 2 ^ 31 - 1

inductive Tid
  | t1
  | t2
  deriving DecidableEq

/-- The turns of the loop that are complete, and `loc` between the load and the store. -/
structure Thread where
  iterations : ℕ
  loc : Option ℕ
  deriving DecidableEq

structure State where
  glob : ℕ
  t1 : Thread
  t2 : Thread
  deriving DecidableEq

def State.thread (s : State) : Tid → Thread
  | .t1 => s.t1
  | .t2 => s.t2

def State.set (s : State) : Tid → Thread → State
  | .t1, th => { s with t1 := th }
  | .t2, th => { s with t2 := th }

inductive Act
  | load (t : Tid)
  | store (t : Tid)

def start : State := ⟨0, ⟨0, none⟩, ⟨0, none⟩⟩

/-- `threadFunc()` of `thread_incr.c`. -/
def step (loops : ℕ) (s : State) : Act → Option State
  | .load t =>
    match s.thread t with
    | ⟨n, none⟩ => if n < loops then some (s.set t ⟨n, some s.glob⟩) else none
    | _ => none
  | .store t =>
    match s.thread t with
    | ⟨n, some loc⟩ =>
      -- an overflow of `loc++` is undefined, and nothing goes on from there
      if loc < intMax then some { s.set t ⟨n + 1, none⟩ with glob := loc + 1 } else none
    | _ => none

def machine (loops : ℕ) : Machine State Act where
  init s := s = start
  step := step loops

/-- Both threads have returned, and `main()` prints `glob`. -/
def State.Finished (loops : ℕ) (s : State) : Prop :=
  s.t1 = ⟨loops, none⟩ ∧ s.t2 = ⟨loops, none⟩

/-- The number of stores so far. -/
def State.stores (s : State) : ℕ := s.t1.iterations + s.t2.iterations

variable {loops : ℕ} {s s' : State} {t : Tid}

theorem step_load {n : ℕ} (h : s.thread t = ⟨n, none⟩) (hn : n < loops) :
    step loops s (.load t) = some (s.set t ⟨n, some s.glob⟩) := by
  rw [step, h]
  exact if_pos hn

theorem step_store (loops : ℕ) {n loc : ℕ} (h : s.thread t = ⟨n, some loc⟩)
    (hloc : loc < intMax) :
    step loops s (.store t) = some { s.set t ⟨n + 1, none⟩ with glob := loc + 1 } := by
  rw [step, h]
  exact if_pos hloc

/-- What a step can be. -/
theorem step_cases {a : Act} (ha : step loops s a = some s') :
    (∃ t n, s.thread t = ⟨n, none⟩ ∧ n < loops ∧ s' = s.set t ⟨n, some s.glob⟩) ∨
      ∃ t n loc, s.thread t = ⟨n, some loc⟩ ∧
        s' = { s.set t ⟨n + 1, none⟩ with glob := loc + 1 } := by
  cases a with
  | load t =>
    rcases h : s.thread t with ⟨n, _ | loc⟩
    · rw [step, h] at ha
      obtain ⟨hn, ha⟩ := Option.ite_none_right_eq_some.mp ha
      exact Or.inl ⟨t, n, h, hn, (Option.some.inj ha).symm⟩
    · simp [step, h] at ha
  | store t =>
    rcases h : s.thread t with ⟨n, _ | loc⟩
    · simp [step, h] at ha
    · rw [step, h] at ha
      obtain ⟨-, ha⟩ := Option.ite_none_right_eq_some.mp ha
      exact Or.inr ⟨t, n, loc, h, (Option.some.inj ha).symm⟩

/-- Every load after a thread's own first store is of a positive value. -/
structure ThreadInv (loops stores : ℕ) (th : Thread) : Prop where
  iterations_le : th.iterations ≤ loops
  loc : ∀ v, th.loc = some v → v ≤ stores ∧ th.iterations < loops ∧ (0 < th.iterations → 0 < v)

/-- Once there is a store, `glob` is never 0 again; the last store of all is then of at least 2. -/
structure Inv (loops : ℕ) (s : State) : Prop where
  t1 : ThreadInv loops s.stores s.t1
  t2 : ThreadInv loops s.stores s.t2
  glob_le : s.glob ≤ s.stores
  glob_pos : 0 < s.stores → 0 < s.glob
  two_le : 2 ≤ loops → s.t1.iterations = loops → s.t2.iterations = loops → 2 ≤ s.glob

theorem ThreadInv.initial (loops stores : ℕ) : ThreadInv loops stores ⟨0, none⟩ :=
  ⟨Nat.zero_le loops, fun _ h => absurd h (by simp)⟩

theorem ThreadInv.mono {stores stores' : ℕ} {th : Thread} (h : ThreadInv loops stores th)
    (hle : stores ≤ stores') : ThreadInv loops stores' th :=
  ⟨h.iterations_le, fun v hv => ⟨(h.loc v hv).1.trans hle, (h.loc v hv).2⟩⟩

theorem ThreadInv.stored {stores n : ℕ} (hn : n < loops) : ThreadInv loops stores ⟨n + 1, none⟩ :=
  ⟨hn, fun _ h => absurd h (by simp)⟩

theorem inv_start (loops : ℕ) : Inv loops start where
  t1 := .initial loops _
  t2 := .initial loops _
  glob_le := le_rfl
  glob_pos h := absurd h (lt_irrefl 0)
  two_le h h1 := absurd (h.trans_eq h1.symm) (by decide)

theorem Inv.thread (h : Inv loops s) (t : Tid) : ThreadInv loops s.stores (s.thread t) := by
  cases t with
  | t1 => exact h.t1
  | t2 => exact h.t2

theorem Inv.loaded (h : Inv loops s) {n : ℕ} (ht : s.thread t = ⟨n, none⟩) (hn : n < loops) :
    ThreadInv loops s.stores ⟨n, some s.glob⟩ := by
  refine ⟨hn.le, fun v hv => ?_⟩
  obtain rfl := Option.some.inj hv
  refine ⟨h.glob_le, hn, fun hpos => h.glob_pos ?_⟩
  have hn' : (s.thread t).iterations = n := by rw [ht]
  cases t with
  | t1 => exact Nat.add_pos_left (hpos.trans_eq hn'.symm) _
  | t2 => exact Nat.add_pos_right _ (hpos.trans_eq hn'.symm)

theorem inv_load (h : Inv loops s) {n : ℕ} (ht : s.thread t = ⟨n, none⟩) (hn : n < loops) :
    Inv loops (s.set t ⟨n, some s.glob⟩) := by
  have hloaded := h.loaded ht hn
  cases t with
  | t1 =>
    obtain ⟨glob, _, t2⟩ := s
    obtain rfl := ht
    exact { h with t1 := hloaded }
  | t2 =>
    obtain ⟨glob, t1, _⟩ := s
    obtain rfl := ht
    exact { h with t2 := hloaded }

theorem inv_store (h : Inv loops s) {n loc : ℕ} (ht : s.thread t = ⟨n, some loc⟩) :
    Inv loops { s.set t ⟨n + 1, none⟩ with glob := loc + 1 } := by
  obtain ⟨hle, hn, hpos⟩ := (h.thread t).loc loc (by rw [ht])
  rw [ht] at hn hpos
  have htwo : 2 ≤ loops → n + 1 = loops → 2 ≤ loc + 1 := fun h2 hlast => by
    have := hpos (by omega : 0 < n)
    omega
  cases t with
  | t1 =>
    obtain ⟨glob, _, t2⟩ := s
    obtain rfl := ht
    exact {
      t1 := .stored hn
      t2 := h.t2.mono (by simp only [State.stores, State.set]; omega)
      glob_le := by simp only [State.stores, State.set] at hle ⊢; omega
      glob_pos := fun _ => Nat.succ_pos loc
      two_le := fun h2 h1 _ => htwo h2 h1 }
  | t2 =>
    obtain ⟨glob, t1, _⟩ := s
    obtain rfl := ht
    exact {
      t1 := h.t1.mono (by simp only [State.stores, State.set]; omega)
      t2 := .stored hn
      glob_le := by simp only [State.stores, State.set] at hle ⊢; omega
      glob_pos := fun _ => Nat.succ_pos loc
      two_le := fun h2 _ h1 => htwo h2 h1 }

theorem inv_step (h : Inv loops s) {a : Act} (ha : step loops s a = some s') : Inv loops s' := by
  rcases step_cases ha with ⟨t, n, ht, hn, rfl⟩ | ⟨t, n, loc, ht, rfl⟩
  · exact inv_load h ht hn
  · exact inv_store h ht

theorem inv_of_reachable (hs : (machine loops).Reachable s) : Inv loops s := by
  refine hs.invariant (I := Inv loops) ?_ fun _ _ _ h ha => inv_step h ha
  rintro _ rfl
  exact inv_start loops

/-! ### Every run ends -/

/-- The loads and stores that a thread has before it. -/
def Thread.left (loops : ℕ) (th : Thread) : ℕ :=
  2 * (loops - th.iterations) - th.loc.isSome.toNat

def weight (loops : ℕ) (s : State) : ℕ := s.t1.left loops + s.t2.left loops

theorem left_load {n v : ℕ} (hn : n < loops) :
    (⟨n, some v⟩ : Thread).left loops < (⟨n, none⟩ : Thread).left loops := by
  simp only [Thread.left, Option.isSome_some, Option.isSome_none, Bool.toNat_true, Bool.toNat_false]
  omega

theorem left_store {n v : ℕ} (hn : n < loops) :
    (⟨n + 1, none⟩ : Thread).left loops < (⟨n, some v⟩ : Thread).left loops := by
  simp only [Thread.left, Option.isSome_some, Option.isSome_none, Bool.toNat_true, Bool.toNat_false]
  omega

theorem weight_set (s : State) (t : Tid) (th : Thread) (glob : ℕ)
    (h : th.left loops < (s.thread t).left loops) :
    weight loops { s.set t th with glob := glob } < weight loops s := by
  cases t with
  | t1 => exact Nat.add_lt_add_right h _
  | t2 => exact Nat.add_lt_add_left h _

theorem weight_step (h : Inv loops s) {a : Act} (ha : step loops s a = some s') :
    weight loops s' < weight loops s := by
  rcases step_cases ha with ⟨t, n, ht, hn, rfl⟩ | ⟨t, n, loc, ht, rfl⟩
  · have hlt := weight_set s t ⟨n, some s.glob⟩ s.glob (by rw [ht]; exact left_load hn)
    cases t <;> exact hlt
  · have hn := ((h.thread t).loc loc (by rw [ht])).2.1
    rw [ht] at hn
    exact weight_set s t ⟨n + 1, none⟩ (loc + 1) (by rw [ht]; exact left_store hn)

/-- What a thread has loaded is less than all the increments together. -/
theorem Inv.loc_lt (h : Inv loops s) {n loc : ℕ} (ht : s.thread t = ⟨n, some loc⟩) :
    loc < 2 * loops := by
  obtain ⟨hle, hn, -⟩ := (h.thread t).loc loc (by rw [ht])
  have h1 := h.t1.iterations_le
  have h2 := h.t2.iterations_le
  cases t with
  | t1 | t2 =>
    simp only [State.thread, State.stores] at hle hn
    omega

theorem thread_of_stuck (hfits : 2 * loops ≤ intMax) (h : Inv loops s)
    (hs : (machine loops).Stuck s) (t : Tid) : s.thread t = ⟨loops, none⟩ := by
  have hle := (h.thread t).iterations_le
  rcases ht : s.thread t with ⟨n, _ | loc⟩
  · rw [ht] at hle
    by_cases hn : n < loops
    · exact absurd ((step_load ht hn).symm.trans (hs (.load t))) (Option.some_ne_none _)
    · obtain rfl : n = loops := le_antisymm hle (not_lt.mp hn)
      rfl
  · have hstore := step_store loops ht ((h.loc_lt ht).trans_le hfits)
    exact absurd (hstore.symm.trans (hs (.store t))) (Option.some_ne_none _)

/-! ### Every value in the range -/

theorem reachable_load {n : ℕ} (hs : (machine loops).Reachable s) (t : Tid)
    (ht : s.thread t = ⟨n, none⟩) (hn : n < loops) :
    (machine loops).Reachable (s.set t ⟨n, some s.glob⟩) :=
  .step (.load t) hs trivial (step_load ht hn)

theorem reachable_store {n loc : ℕ} (hs : (machine loops).Reachable s) (t : Tid)
    (ht : s.thread t = ⟨n, some loc⟩) (hloc : loc < intMax) :
    (machine loops).Reachable { s.set t ⟨n + 1, none⟩ with glob := loc + 1 } :=
  .step (.store t) hs trivial (step_store loops ht hloc)

/-- A thread that is alone for `k` turns adds `k`. -/
theorem reachable_iterate {n k : ℕ} (hs : (machine loops).Reachable s) (t : Tid)
    (ht : s.thread t = ⟨n, none⟩) (hk : n + k ≤ loops) (hglob : s.glob + k ≤ intMax) :
    (machine loops).Reachable { s.set t ⟨n + k, none⟩ with glob := s.glob + k } := by
  induction k with
  | zero =>
    cases t <;> simpa [State.set, ← ht, State.thread] using hs
  | succ k ih =>
    have hload := reachable_load (ih (by omega) (by omega)) t (n := n + k) (by cases t <;> rfl)
      (by omega)
    have hstore := reachable_store hload t (by cases t <;> rfl)
      (show s.glob + k < intMax by omega)
    cases t <;> exact hstore

/-- `t1` keeps `loc` over the turns of `t2` but the last; then `t2` keeps its own over the rest of
`t1`. Of all that either thread does after its first `p` and `q` turns only two increments remain.
-/
theorem reachable_lost {p q : ℕ} (hp : p < loops) (hq : q < loops) (hfits : 2 * loops ≤ intMax) :
    (machine loops).Reachable ⟨p + q + 2, ⟨loops, none⟩, ⟨loops, none⟩⟩ := by
  have h0 : (machine loops).Reachable ⟨0, ⟨0, none⟩, ⟨0, none⟩⟩ := .init rfl
  have h1 := reachable_iterate (k := p) h0 .t1 rfl (by omega) (show 0 + p ≤ intMax by omega)
  have h2 := reachable_iterate (k := q) h1 .t2 rfl (by omega) (show 0 + p + q ≤ intMax by omega)
  have h3 := reachable_load h2 .t1 rfl (by omega)
  have h4 := reachable_iterate (k := loops - 1 - q) h3 .t2 rfl (by omega)
    (show 0 + p + q + (loops - 1 - q) ≤ intMax by omega)
  have h5 := reachable_store h4 .t1 rfl (show 0 + p + q < intMax by omega)
  have h6 := reachable_load h5 .t2 rfl (by omega)
  have h7 := reachable_iterate (k := loops - 1 - p) h6 .t1 rfl (by omega)
    (show 0 + p + q + 1 + (loops - 1 - p) ≤ intMax by omega)
  have h8 := reachable_store h7 .t2 rfl (show 0 + p + q + 1 < intMax by omega)
  have hiter1 : 0 + p + 1 + (loops - 1 - p) = loops := by omega
  have hiter2 : 0 + q + (loops - 1 - q) + 1 = loops := by omega
  have hglob : 0 + p + q + 1 + 1 = p + q + 2 := by omega
  simp only [State.set] at h8
  rwa [hiter1, hiter2, hglob] at h8

/-- Both threads load before either stores. -/
theorem reachable_one : (machine 1).Reachable ⟨1, ⟨1, none⟩, ⟨1, none⟩⟩ := by
  have h0 : (machine 1).Reachable start := .init rfl
  have h1 := reachable_load h0 .t1 rfl one_pos
  have h2 := reachable_load h1 .t2 rfl one_pos
  have h3 := reachable_store h2 .t1 rfl (show 0 < intMax by decide)
  exact reachable_store h3 .t2 rfl (show 0 < intMax by decide)

/-- As long as twice the number of loops is an `int`, every run ends without an overflow, and
`thread_incr` can print each number from 2 to twice the number of loops (and 1 for a single loop),
and no other. -/
theorem thread_incr_range (loops : ℕ) (hloops : 0 < loops) (hfits : 2 * loops ≤ intMax) :
    (machine loops).Completes (State.Finished loops) ∧
      ∀ v, (∃ s, (machine loops).Reachable s ∧ s.Finished loops ∧ s.glob = v) ↔
        min 2 loops ≤ v ∧ v ≤ 2 * loops := by
  refine ⟨Machine.completes_of_weight (Inv loops) (weight loops) (fun _ h => h ▸ inv_start loops)
    (fun _ _ _ h ha => inv_step h ha) (fun _ _ _ h ha => weight_step h ha)
    fun _ h hs => ⟨thread_of_stuck hfits h hs .t1, thread_of_stuck hfits h hs .t2⟩,
    fun v => ⟨?_, ?_⟩⟩
  · rintro ⟨s, hs, ⟨h1, h2⟩, rfl⟩
    have h := inv_of_reachable hs
    have hstores : s.stores = 2 * loops := by
      rw [State.stores, h1, h2]
      exact (two_mul loops).symm
    refine ⟨?_, hstores ▸ h.glob_le⟩
    rcases Nat.lt_or_ge loops 2 with hone | htwo
    · have hpos := h.glob_pos (by omega)
      omega
    · exact (min_le_left _ _).trans (h.two_le htwo (by rw [h1]) (by rw [h2]))
  · rintro ⟨hlow, hhigh⟩
    rcases Nat.lt_or_ge v 2 with hsmall | htwo
    · obtain rfl : loops = 1 := by omega
      obtain rfl : v = 1 := by omega
      exact ⟨_, reachable_one, ⟨rfl, rfl⟩, rfl⟩
    · -- the two increments of `reachable_lost`, after as many undisturbed ones as are wanted
      have hlost := reachable_lost (p := min (v - 2) (loops - 1))
        (q := v - 2 - min (v - 2) (loops - 1))
        (show _ < loops by omega) (by omega) hfits
      exact ⟨_, hlost, ⟨rfl, rfl⟩, by simp only; omega⟩

theorem thread_incr_range_thousand :
    (machine 1000).Completes (State.Finished 1000) ∧
      ∃ s, (machine 1000).Reachable s ∧ s.Finished 1000 ∧ s.glob = 2 := by
  obtain ⟨hcompletes, hrange⟩ := thread_incr_range 1000 (by decide) (by decide)
  exact ⟨hcompletes, (hrange 2).mpr (by decide)⟩

end Tlpi.Threads.ThreadIncr
