import Tlpi.Lib.Counting
import Tlpi.Lib.Machine
import Tlpi.Lib.Progress
import Tlpi.Lib.Strtol
import Mathlib.Tactic

/-! The producers of `threads/prod_condvar.c` and its main thread, which consumes. A step is one
critical section of `mtx`, one signal, one wake-up or one `pthread_create()`. -/

namespace Tlpi.Threads.ProdCondvar
open Finset Lib

inductive ProdPc
  | uncreated
  /-- At the test of the loop. -/
  | top
  /-- Past `pthread_mutex_unlock()`, about to signal. -/
  | signal
  deriving DecidableEq

inductive ConsPc
  /-- Creating the threads, and then before `pthread_mutex_lock()`. -/
  | top
  /-- Blocked in `pthread_cond_wait()`. -/
  | waiting
  /-- Woken inside `pthread_cond_wait()`, about to get the mutex back. -/
  | woken
  | exited
  deriving DecidableEq

structure State (n : ℕ) where
  avail : ℕ
  numConsumed : ℕ
  /-- Number of `pthread_create()` calls so far. -/
  created : ℕ
  /-- `j` of each producer. -/
  produced : Fin n → ℕ
  prod : Fin n → ProdPc
  cons : ConsPc

inductive Act (n : ℕ)
  | create
  | produce (i : Fin n)
  | signal (i : Fin n)
  | consume
  | spurious

variable {n : ℕ}

def start (n : ℕ) : State n where
  avail := 0
  numConsumed := 0
  created := 0
  produced := fun _ => 0
  prod := fun _ => .uncreated
  cons := .top

/-- The numbers of units, as `atoi()` reads the arguments. Some may be negative, and all together
they are small enough for an `int`. -/
structure Args (n : ℕ) where
  cnt : Fin n → ℤ
  fits : ∑ i, |cnt i| ≤ INT_MAX

def totRequired (cnt : Fin n → ℤ) : ℤ := ∑ i, cnt i

/-- The loop that consumes all available units: `numConsumed` and `done` after it. -/
def drain (totRequired : ℤ) : (avail numConsumed : ℕ) → (done : Bool) → ℕ × Bool
  | 0, numConsumed, done => (numConsumed, done)
  | avail + 1, numConsumed, _ =>
    drain totRequired avail (numConsumed + 1) (decide (numConsumed + 1 ≥ totRequired))

/-- From holding `mtx`, at the top or back from a wait, to the next wait or past the unlock. -/
def consume (cnt : Fin n → ℤ) (s : State n) : State n :=
  if s.avail = 0 then { s with cons := .waiting }
  else
    let r := drain (totRequired cnt) s.avail s.numConsumed false
    { s with avail := 0, numConsumed := r.1, cons := if r.2 then .exited else .top }

def act (cnt : Fin n → ℤ) (s : State n) : Act n → Option (State n)
  | .create =>
    if h : s.created < n then
      some { s with created := s.created + 1, prod := Function.update s.prod ⟨s.created, h⟩ .top }
    else none
  | .produce i =>
    if s.prod i = .top ∧ s.produced i < cnt i then
      some { s with
        avail := s.avail + 1
        produced := Function.update s.produced i (s.produced i + 1)
        prod := Function.update s.prod i .signal }
    else none
  | .signal i =>
    if s.prod i = .signal then
      some { s with
        prod := Function.update s.prod i .top
        cons := if s.cons = .waiting then .woken else s.cons }
    else none
  | .consume =>
    if s.created = n ∧ s.cons = .top ∨ s.cons = .woken then some (consume cnt s) else none
  | .spurious => if s.cons = .waiting then some { s with cons := .woken } else none

/-- The process: nothing happens any more after `exit()`. -/
def machine (cnt : Fin n → ℤ) : Machine (State n) (Act n) where
  init s := s = start n
  step s a := if s.cons = .exited then none else act cnt s a

/-- A spurious wake-up costs two steps: itself and the wait that follows. -/
def cost : Act n → ℕ
  | .spurious => 2
  | _ => 0

theorem drain_eq (tot : ℤ) (avail numConsumed : ℕ) (done : Bool) (h : avail ≠ 0) :
    drain tot avail numConsumed done =
      (numConsumed + avail, decide (tot ≤ numConsumed + avail)) := by
  induction avail generalizing numConsumed done with
  | zero => exact absurd rfl h
  | succ avail ih =>
    rw [drain]
    rcases Nat.eq_zero_or_pos avail with rfl | hpos
    · simp [drain]
    · have hsum : numConsumed + 1 + avail = numConsumed + (avail + 1) := by omega
      rw [ih _ _ hpos.ne', ← Nat.cast_add, hsum, Nat.cast_add]

variable {cnt : Fin n → ℤ} {s s' : State n}

/-- The number of units that a producer makes. -/
def units (cnt : Fin n → ℤ) (i : Fin n) : ℕ := (cnt i).toNat

structure Inv (cnt : Fin n → ℤ) (s : State n) : Prop where
  balance : s.avail + s.numConsumed = ∑ i, s.produced i
  produced_le : ∀ i, s.produced i ≤ units cnt i
  created_le : s.created ≤ n
  uncreated : ∀ i : Fin n, s.prod i = .uncreated ↔ s.created ≤ i
  before : s.cons ≠ .top → s.created = n
  /-- No wake-up is lost. -/
  wakes : s.cons = .waiting → 0 < s.avail → ∃ i, s.prod i = .signal
  exited : s.cons = .exited ↔ 0 < s.numConsumed ∧ totRequired cnt ≤ s.numConsumed

theorem inv_start (cnt : Fin n → ℤ) : Inv cnt (start n) where
  balance := by simp [start]
  produced_le i := Nat.zero_le _
  created_le := Nat.zero_le n
  uncreated i := by simp [start]
  before h := absurd rfl h
  wakes h := absurd h (by simp [start])
  exited := by simp [start]

theorem inv_create (h : Inv cnt s) (hlt : s.created < n) :
    Inv cnt { s with
      created := s.created + 1, prod := Function.update s.prod ⟨s.created, hlt⟩ .top } where
  balance := h.balance
  produced_le := h.produced_le
  created_le := hlt
  uncreated i := by
    by_cases hi : i = ⟨s.created, hlt⟩
    · subst hi
      simp
    · have hne : (i : ℕ) ≠ s.created := fun heq => hi (Fin.ext heq)
      simp only [Function.update_of_ne hi, h.uncreated i]
      omega
  before hc := absurd (h.before hc) hlt.ne
  wakes hc := absurd (h.before fun htop => absurd (hc.symm.trans htop) (by decide)) hlt.ne
  exited := h.exited

theorem inv_produce (h : Inv cnt s) {i : Fin n} (htop : s.prod i = .top)
    (hlt : s.produced i < cnt i) :
    Inv cnt { s with
      avail := s.avail + 1
      produced := Function.update s.produced i (s.produced i + 1)
      prod := Function.update s.prod i .signal } where
  balance := by
    have hsum := sum_update id s.produced i (s.produced i + 1)
    have hbalance := h.balance
    simp only [id] at hsum
    simp only
    omega
  produced_le k := by
    by_cases hk : k = i
    · subst hk
      simp only [Function.update_self, units]
      omega
    · simpa only [Function.update_of_ne hk] using h.produced_le k
  created_le := h.created_le
  uncreated k := by
    by_cases hk : k = i
    · subst hk
      have hold := h.uncreated k
      simpa [htop] using hold
    · simpa only [Function.update_of_ne hk] using h.uncreated k
  before := h.before
  wakes _ _ := ⟨i, Function.update_self ..⟩
  exited := h.exited

theorem inv_signal (h : Inv cnt s) {i : Fin n} (hsignal : s.prod i = .signal) :
    Inv cnt { s with
      prod := Function.update s.prod i .top
      cons := if s.cons = .waiting then .woken else s.cons } where
  balance := h.balance
  produced_le := h.produced_le
  created_le := h.created_le
  uncreated k := by
    by_cases hk : k = i
    · subst hk
      have hold := h.uncreated k
      simpa [hsignal] using hold
    · simpa only [Function.update_of_ne hk] using h.uncreated k
  before hc := h.before fun htop => hc (by simp [htop])
  wakes hc := by
    simp only at hc
    split_ifs at hc with hw
    exact absurd hc hw
  exited := by
    rw [← h.exited]
    simp only
    split_ifs with hw
    · simp [hw]
    · exact Iff.rfl

theorem inv_consume (h : Inv cnt s) (hcreated : s.created = n) (hlive : s.cons ≠ .exited) :
    Inv cnt (consume cnt s) := by
  rw [consume]
  split_ifs with havail
  · refine { h with before := fun _ => hcreated, wakes := fun _ hpos => ?_, exited := ?_ }
    · exact absurd havail hpos.ne'
    · rw [← h.exited]
      simp [hlive]
  · rw [drain_eq _ _ _ _ havail]
    refine { h with balance := ?_, before := fun _ => hcreated, wakes := ?_, exited := ?_ }
    · rw [← h.balance]
      simp only
      omega
    · simp
    · have hpos : 0 < s.numConsumed + s.avail := by omega
      by_cases hdone : totRequired cnt ≤ s.numConsumed + s.avail
      · simp [hdone, hpos]
      · simp [hdone]

theorem inv_spurious (h : Inv cnt s) (hw : s.cons = .waiting) :
    Inv cnt { s with cons := .woken } := by
  refine { h with before := fun _ => h.before (by simp [hw]), wakes := by simp, exited := ?_ }
  rw [← h.exited]
  simp [hw]

theorem inv_step (h : Inv cnt s) {a : Act n} (ha : (machine cnt).step s a = some s') :
    Inv cnt s' := by
  obtain ⟨hlive, ha⟩ := Option.ite_none_left_eq_some.mp ha
  cases a with
  | create =>
    simp only [act] at ha
    split_ifs at ha with hlt
    obtain rfl := Option.some.inj ha
    exact inv_create h hlt
  | produce i =>
    obtain ⟨⟨htop, hlt⟩, ha⟩ := Option.ite_none_right_eq_some.mp ha
    obtain rfl := Option.some.inj ha
    exact inv_produce h htop hlt
  | signal i =>
    obtain ⟨hsignal, ha⟩ := Option.ite_none_right_eq_some.mp ha
    obtain rfl := Option.some.inj ha
    exact inv_signal h hsignal
  | consume =>
    obtain ⟨hc, ha⟩ := Option.ite_none_right_eq_some.mp ha
    obtain rfl := Option.some.inj ha
    exact inv_consume h (hc.elim And.left fun hw => h.before (by simp [hw])) hlive
  | spurious =>
    obtain ⟨hw, ha⟩ := Option.ite_none_right_eq_some.mp ha
    obtain rfl := Option.some.inj ha
    exact inv_spurious h hw

theorem inv_of_reachable (hs : (machine cnt).Reachable s) : Inv cnt s := by
  refine hs.invariant (I := Inv cnt) ?_ fun _ _ _ h ha => inv_step h ha
  rintro _ rfl
  exact inv_start cnt

/-! ## Every run ends -/

def ConsPc.weight : ConsPc → ℕ
  | .top | .woken => 1
  | _ => 0

def ProdPc.weight : ProdPc → ℕ
  | .signal => 2
  | _ => 0

/-- A unit that is yet to be produced weighs 4, and 1 while it is available. -/
def weight (cnt : Fin n → ℤ) (s : State n) : ℕ :=
  (n - s.created) + 4 * (∑ i, units cnt i - ∑ i, s.produced i) + ∑ i, (s.prod i).weight +
    s.avail + s.cons.weight

theorem weight_consume (hcons : s.cons = .top ∨ s.cons = .woken) :
    weight cnt (consume cnt s) < weight cnt s := by
  have hone : s.cons.weight = 1 := by rcases hcons with h | h <;> rw [h] <;> rfl
  rw [consume]
  split_ifs with havail
  · have hzero : ConsPc.waiting.weight = 0 := rfl
    simp only [weight, hone, hzero]
    omega
  · have hle : ∀ b : Bool, (if b then ConsPc.exited else .top).weight ≤ 1 := by decide
    have hnew := hle (drain (totRequired cnt) s.avail s.numConsumed false).2
    simp only [weight, hone]
    omega

theorem weight_step (h : Inv cnt s) {a : Act n} (ha : (machine cnt).step s a = some s') :
    weight cnt s' < weight cnt s + cost a := by
  obtain ⟨hlive, ha⟩ := Option.ite_none_left_eq_some.mp ha
  cases a with
  | create =>
    simp only [act] at ha
    split_ifs at ha with hlt
    obtain rfl := Option.some.inj ha
    have hold := (h.uncreated ⟨s.created, hlt⟩).mpr le_rfl
    have hsum := sum_update ProdPc.weight s.prod ⟨s.created, hlt⟩ .top
    simp only [hold, ProdPc.weight] at hsum
    simp only [weight, cost, ProdPc.weight]
    omega
  | produce i =>
    obtain ⟨⟨htop, hlt⟩, ha⟩ := Option.ite_none_right_eq_some.mp ha
    obtain rfl := Option.some.inj ha
    have hsum := sum_update ProdPc.weight s.prod i .signal
    have hunits := sum_update id s.produced i (s.produced i + 1)
    have hle : ∑ k, Function.update s.produced i (s.produced i + 1) k ≤ ∑ k, units cnt k :=
      sum_le_sum fun k _ => (inv_produce h htop hlt).produced_le k
    simp only [id] at hunits
    simp only [htop, ProdPc.weight] at hsum
    simp only [weight, cost, ProdPc.weight]
    omega
  | signal i =>
    obtain ⟨hsignal, ha⟩ := Option.ite_none_right_eq_some.mp ha
    obtain rfl := Option.some.inj ha
    have hsum := sum_update ProdPc.weight s.prod i .top
    have hcons : (if s.cons = .waiting then .woken else s.cons).weight ≤ s.cons.weight + 1 := by
      cases s.cons <;> decide
    simp only [hsignal, ProdPc.weight] at hsum
    simp only [weight, cost, ProdPc.weight]
    omega
  | consume =>
    obtain ⟨hc, ha⟩ := Option.ite_none_right_eq_some.mp ha
    obtain rfl := Option.some.inj ha
    exact weight_consume (hc.imp And.right id)
  | spurious =>
    obtain ⟨hw, ha⟩ := Option.ite_none_right_eq_some.mp ha
    obtain rfl := Option.some.inj ha
    simp [weight, cost, hw, ConsPc.weight]

section Stuck
variable (hs : ∀ a, cost a = 0 → (machine cnt).step s a = none)
include hs

/-- Where nothing happens without the outside, all that is to be produced is consumed. -/
theorem drained_of_stuck (h : Inv cnt s) (hlive : s.cons ≠ .exited) :
    s.cons = .waiting ∧ s.numConsumed = ∑ i, units cnt i := by
  have hact : ∀ a, cost a = 0 → act cnt s a = none := by
    intro a ha
    simpa [machine, hlive] using hs a ha
  have hcreated : s.created = n := by
    by_contra hne
    have hcreate := hact .create rfl
    simp [act, lt_of_le_of_ne h.created_le hne] at hcreate
  have hwaiting : s.cons = .waiting := by
    have hconsume := hact .consume rfl
    cases hc : s.cons with
    | waiting => rfl
    | exited => exact absurd hc hlive
    | _ => simp [act, hc, hcreated] at hconsume
  have htop : ∀ i, s.prod i = .top := by
    intro i
    cases hp : s.prod i with
    | uncreated => exact absurd ((h.uncreated i).mp hp) (by have := i.isLt; omega)
    | top => rfl
    | signal =>
      have hsignal := hact (.signal i) rfl
      simp [act, hp] at hsignal
  have hproduced : ∀ i, s.produced i = units cnt i := by
    intro i
    have hproduce := hact (.produce i) rfl
    simp only [act, htop i, true_and, ite_eq_right_iff, reduceCtorEq, imp_false, not_lt] at hproduce
    have hle := h.produced_le i
    simp only [units] at hle ⊢
    omega
  have havail : s.avail = 0 := by
    by_contra hne
    obtain ⟨i, hi⟩ := h.wakes hwaiting (Nat.pos_of_ne_zero hne)
    exact absurd ((htop i).symm.trans hi) (by decide)
  refine ⟨hwaiting, ?_⟩
  have hbalance := h.balance
  rw [havail, Nat.zero_add] at hbalance
  rw [hbalance]
  exact sum_congr rfl fun i _ => hproduced i

end Stuck

theorem totRequired_le (cnt : Fin n → ℤ) : totRequired cnt ≤ ((∑ i, units cnt i : ℕ) : ℤ) := by
  rw [totRequired, Nat.cast_sum]
  exact sum_le_sum fun i _ => Int.self_le_toNat (cnt i)

theorem units_pos {i : Fin n} (hi : 0 < cnt i) : 0 < ∑ k, units cnt k :=
  sum_pos' (fun k _ => Nat.zero_le _) ⟨i, mem_univ i, by simpa [units] using hi⟩

theorem exited_of_stuck (hpos : ∃ i, 0 < cnt i) (h : Inv cnt s)
    (hs : ∀ a, cost a = 0 → (machine cnt).step s a = none) : s.cons = .exited := by
  by_contra hlive
  obtain ⟨-, hall⟩ := drained_of_stuck hs h hlive
  obtain ⟨i, hi⟩ := hpos
  exact hlive (h.exited.mpr ⟨hall ▸ units_pos hi, hall ▸ totRequired_le cnt⟩)

theorem units_le (cnt : Fin n → ℤ) : ((∑ i, units cnt i : ℕ) : ℤ) ≤ ∑ i, |cnt i| := by
  rw [Nat.cast_sum]
  refine sum_le_sum fun i _ => ?_
  rw [units, Int.toNat_eq_max]
  exact max_le (le_abs_self _) (abs_nonneg _)

end Tlpi.Threads.ProdCondvar
