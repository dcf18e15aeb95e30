import Mathlib.Data.Fintype.Card
import Mathlib.Data.Fintype.Basic
import Mathlib.Data.Int.Cast.Basic
import Mathlib.Algebra.Ring.Int.Defs
import Mathlib.Tactic.SplitIfs
import Tlpi.Lib.Counting
import Tlpi.Lib.Machine

/-! The producers and consumers of `threads/prod_cons_cv.c`. A step is one critical section of
`mtx`, one broadcast, one wake-up or one `pthread_create()`; `avail` and the counters are C ints
that stay within `0 .. totalUnits`, so they are integers here. -/

namespace Tlpi.Threads.ProdConsCv
open Finset Lib

inductive ProdPc
  | uncreated
  /-- At the top of the loop, before `pthread_mutex_lock()`. -/
  | top
  /-- Past `pthread_mutex_unlock()`, about to broadcast. -/
  | broadcast (prodDone : Bool)
  | terminated
  deriving DecidableEq

inductive ConsPc
  | uncreated
  | top
  /-- Blocked in `pthread_cond_wait()`. -/
  | waiting
  /-- Woken inside `pthread_cond_wait()`, about to get the mutex back. -/
  | woken
  /-- `consDone` is set: the loop is not entered again. -/
  | done
  | terminated
  deriving DecidableEq

/-- The consumer has left its loop. -/
def ConsPc.left : ConsPc → Bool
  | .done | .terminated => true
  | _ => false

structure State (numProd numCons : ℕ) where
  avail : ℤ
  unitsProduced : ℤ
  unitsConsumed : ℤ
  numLiveCons : ℤ
  /-- Number of `pthread_create()` calls that `main()` has made. -/
  created : ℕ
  prod : Fin numProd → ProdPc
  cons : Fin numCons → ConsPc
  exited : Bool

inductive Act (numProd numCons : ℕ)
  | create
  | produce (i : Fin numProd)
  | broadcast (i : Fin numProd)
  | consume (j : Fin numCons)
  | spurious (j : Fin numCons)
  | leave (j : Fin numCons)

variable {numProd numCons : ℕ} {totalUnits : ℤ}

/-- `main()` up to its first `pthread_create()`. -/
def start (numProd numCons : ℕ) : State numProd numCons where
  avail := 0
  unitsProduced := 0
  unitsConsumed := 0
  numLiveCons := numCons
  created := 0
  prod := fun _ => .uncreated
  cons := fun _ => .uncreated
  exited := false

/-- The next `pthread_create()` of `main()`: all the producers first, then the consumers. -/
def create (s : State numProd numCons) : Option (State numProd numCons) :=
  if hp : s.created < numProd then
    some { s with created := s.created + 1, prod := Function.update s.prod ⟨s.created, hp⟩ .top }
  else if hc : s.created - numProd < numCons then
    some { s with
      created := s.created + 1
      cons := Function.update s.cons ⟨s.created - numProd, hc⟩ .top }
  else none

/-- The critical section of `producer()`. -/
def produce (totalUnits : ℤ) (s : State numProd numCons) (i : Fin numProd) :
    State numProd numCons :=
  if s.unitsProduced ≥ totalUnits then
    { s with prod := Function.update s.prod i (.broadcast true) }
  else
    { s with
      avail := s.avail + 1
      unitsProduced := s.unitsProduced + 1
      prod := Function.update s.prod i (.broadcast false) }

/-- `pthread_cond_broadcast()` wakes exactly the consumers that wait at this moment. -/
def wake : ConsPc → ConsPc
  | .waiting => .woken
  | pc => pc

def broadcast (s : State numProd numCons) (i : Fin numProd) (prodDone : Bool) :
    State numProd numCons :=
  { s with
    prod := Function.update s.prod i (if prodDone then .terminated else .top)
    cons := fun j => wake (s.cons j) }

/-- The critical section of `consumer()`: from holding `mtx`, at its top or back from a wait, to
the next wait, to `exit()` or to the unlock. -/
def consume (totalUnits : ℤ) (s : State numProd numCons) (j : Fin numCons) :
    State numProd numCons :=
  if s.avail = 0 ∧ s.unitsConsumed < totalUnits then
    { s with cons := Function.update s.cons j .waiting }
  else if s.unitsConsumed ≥ totalUnits then
    { s with
      numLiveCons := s.numLiveCons - 1
      cons := Function.update s.cons j .done
      exited := decide (s.numLiveCons - 1 ≤ 0) }
  else
    { s with
      unitsConsumed := s.unitsConsumed + 1
      avail := s.avail - 1
      cons := Function.update s.cons j .top }

def act (totalUnits : ℤ) (s : State numProd numCons) :
    Act numProd numCons → Option (State numProd numCons)
  | .create => create s
  | .produce i => if s.prod i = .top then some (produce totalUnits s i) else none
  | .broadcast i =>
    match s.prod i with
    | .broadcast prodDone => some (broadcast s i prodDone)
    | _ => none
  | .consume j =>
    if s.cons j = .top ∨ s.cons j = .woken then some (consume totalUnits s j) else none
  | .spurious j =>
    if s.cons j = .waiting then some { s with cons := Function.update s.cons j .woken } else none
  | .leave j =>
    if s.cons j = .done then some { s with cons := Function.update s.cons j .terminated } else none

/-- The process: nothing happens any more once a consumer has called `exit()`. -/
def machine (numProd numCons : ℕ) (totalUnits : ℤ) :
    Machine (State numProd numCons) (Act numProd numCons) where
  init s := s = start numProd numCons
  step s a := if s.exited then none else act totalUnits s a

/-! ## The invariant

`wakeup` is the counting argument: a consumer starts to wait only while `avail = 0` and
`unitsConsumed < totalUnits`, that is while units are still to be produced, and the producer of
the last one broadcasts after it. -/

structure Inv (totalUnits : ℤ) (s : State numProd numCons) : Prop where
  avail_eq : s.avail = s.unitsProduced - s.unitsConsumed
  consumed_le : s.unitsConsumed ≤ s.unitsProduced
  produced_le : s.unitsProduced ≤ totalUnits
  finished : ∀ i, s.prod i = .terminated ∨ s.prod i = .broadcast true → s.unitsProduced = totalUnits
  left : ∀ j, (s.cons j).left = true → s.unitsConsumed = totalUnits
  wakeup : ∀ j, s.cons j = .waiting →
    s.unitsProduced < totalUnits ∨ ∃ i d, s.prod i = .broadcast d
  live : s.numLiveCons = #{j | (s.cons j).left = false}
  exit_iff : s.exited = true ↔ s.numLiveCons ≤ 0
  uncreatedProd : ∀ i, s.created ≤ i.1 → s.prod i = .uncreated
  uncreatedCons : ∀ j, s.created ≤ numProd + j.1 → s.cons j = .uncreated

theorem inv_start (hc : 1 ≤ numCons) (ht : 0 ≤ totalUnits) :
    Inv totalUnits (start numProd numCons) where
  avail_eq := rfl
  consumed_le := le_rfl
  produced_le := ht
  finished := by simp [start]
  left := by simp [start, ConsPc.left]
  wakeup := by simp [start]
  live := by simp [start, ConsPc.left]
  exit_iff := by simp [start]; omega
  uncreatedProd := fun _ _ => rfl
  uncreatedCons := fun _ _ => rfl

/-- Moving one consumer between places inside its loop keeps the number of live consumers. -/
theorem live_update (cons : Fin numCons → ConsPc) (j : Fin numCons) (pc : ConsPc)
    (h : pc.left = (cons j).left) :
    #{k | (Function.update cons j pc k).left = false} = #{k | (cons k).left = false} :=
  card_update_of_iff (P := (ConsPc.left · = false)) (by rw [h])

theorem live_done (cons : Fin numCons → ConsPc) (j : Fin numCons) (h : (cons j).left = false) :
    (#{k | (Function.update cons j .done k).left = false} : ℤ) =
      #{k | (cons k).left = false} - 1 := by
  have hcard := card_update_of_not (P := (ConsPc.left · = false)) (a := .done) h (by decide)
  omega

/-- What the place of any thread implies is still implied when one of them has moved. -/
theorem imp_update {n : ℕ} {α : Type} {f : Fin n → α} {i : Fin n} {v : α} {P : α → Prop} {Q : Prop}
    (h : ∀ k, P (f k) → Q) (hv : P v → Q) : ∀ k, P (Function.update f i v k) → Q :=
  (Function.forall_update_iff f fun _ a => P a → Q).mpr ⟨hv, fun k _ => h k⟩

@[simp] theorem wake_left (pc : ConsPc) : (wake pc).left = pc.left := by cases pc <;> rfl

theorem wake_ne_waiting (pc : ConsPc) : wake pc ≠ .waiting := by cases pc <;> simp [wake]

/-- The threads still to be created are not the one that moves. -/
theorem update_uncreated {n : ℕ} {α : Type} {f : Fin n → α} {u : α} {P : Fin n → Prop}
    (h : ∀ k, P k → f k = u) {i : Fin n} (hi : ¬ P i) (v : α) :
    ∀ k, P k → Function.update f i v k = u := by
  intro k hk
  have hne : k ≠ i := fun e => hi (e ▸ hk)
  rw [Function.update_of_ne hne]
  exact h k hk

theorem wake_uncreated {pc : ConsPc} (h : pc = .uncreated) : wake pc = .uncreated := by rw [h]; rfl

theorem inv_create {s s' : State numProd numCons} (h : Inv totalUnits s) (hs : create s = some s') :
    Inv totalUnits s' := by
  unfold create at hs
  split_ifs at hs with hp hc <;> obtain rfl := Option.some.inj hs
  · have hi : s.prod ⟨s.created, hp⟩ = .uncreated := h.uncreatedProd _ le_rfl
    refine { h with finished := ?_, wakeup := ?_, uncreatedProd := ?_, uncreatedCons := ?_ }
    · exact imp_update (P := fun pc : ProdPc => pc = .terminated ∨ pc = .broadcast true)
        h.finished (by simp)
    · intro j hj
      refine (h.wakeup j hj).imp_right fun ⟨i, d, hd⟩ => ⟨i, d, ?_⟩
      have hne : i ≠ ⟨s.created, hp⟩ := by rintro rfl; simp [hi] at hd
      exact (Function.update_of_ne hne _ _).trans hd
    · exact update_uncreated (fun i hle => h.uncreatedProd i (Nat.le_of_succ_le hle)) (by simp) _
    · exact fun j hle => h.uncreatedCons j (by simp only at hle; omega)
  · have hj : s.cons ⟨s.created - numProd, hc⟩ = .uncreated :=
      h.uncreatedCons _ (by simp only; omega)
    refine { h with left := ?_, wakeup := ?_, live := ?_, uncreatedProd := ?_, uncreatedCons := ?_ }
    · exact imp_update (P := (ConsPc.left · = true)) h.left (by simp [ConsPc.left])
    · exact imp_update (P := (· = ConsPc.waiting)) h.wakeup (by simp)
    · exact h.live.trans (congrArg _ (live_update s.cons _ .top (by rw [hj]; rfl)).symm)
    · exact fun i hle => h.uncreatedProd i (by simp only at hle; omega)
    · exact update_uncreated (fun j hle => h.uncreatedCons j (Nat.le_of_succ_le hle))
        (by simp only; omega) _

theorem inv_produce {s : State numProd numCons} (h : Inv totalUnits s) {i : Fin numProd}
    (hi : s.prod i = .top) : Inv totalUnits (produce totalUnits s i) := by
  unfold produce
  have hcreated : ¬ s.created ≤ i.1 := fun hle => by simp [h.uncreatedProd i hle] at hi
  split_ifs with hdone
  · have heq : s.unitsProduced = totalUnits := le_antisymm h.produced_le hdone
    refine { h with finished := fun _ _ => heq, wakeup := ?_, uncreatedProd := ?_ }
    · exact fun j _ => .inr ⟨i, true, by simp⟩
    · exact update_uncreated h.uncreatedProd hcreated _
  · refine { h with avail_eq := ?_, consumed_le := ?_, produced_le := ?_, finished := ?_,
                    wakeup := ?_, uncreatedProd := ?_ }
    · simp only [h.avail_eq]; omega
    · exact h.consumed_le.trans (Int.le_add_one le_rfl)
    · simp only; omega
    · -- no producer has seen the end yet, since units were still missing
      refine imp_update (P := fun pc : ProdPc => pc = .terminated ∨ pc = .broadcast true)
        (fun k hk => ?_) (by simp)
      exact absurd (h.finished k hk).ge hdone
    · exact fun j _ => .inr ⟨i, false, by simp⟩
    · exact update_uncreated h.uncreatedProd hcreated _

theorem inv_broadcast {s : State numProd numCons} (h : Inv totalUnits s) {i : Fin numProd}
    {prodDone : Bool} (hi : s.prod i = .broadcast prodDone) :
    Inv totalUnits (broadcast s i prodDone) := by
  have hcreated : ¬ s.created ≤ i.1 := fun hle => by simp [h.uncreatedProd i hle] at hi
  refine { h with finished := ?_, left := ?_, wakeup := ?_, live := ?_, uncreatedProd := ?_,
                  uncreatedCons := ?_ }
  · refine imp_update (P := fun pc : ProdPc => pc = .terminated ∨ pc = .broadcast true)
      h.finished ?_
    cases prodDone with
    | true => exact fun _ => h.finished i (.inr hi)
    | false => simp
  · exact fun j hj => h.left j (by simpa [broadcast] using hj)
  · exact fun j hj => absurd hj (wake_ne_waiting _)
  · simpa only [broadcast, wake_left] using h.live
  · exact update_uncreated h.uncreatedProd hcreated _
  · exact fun j hle => wake_uncreated (h.uncreatedCons j hle)

theorem inv_consume {s : State numProd numCons} (h : Inv totalUnits s)
    {j : Fin numCons} (hj : s.cons j = .top ∨ s.cons j = .woken) :
    Inv totalUnits (consume totalUnits s j) := by
  have hlive : (s.cons j).left = false := by rcases hj with e | e <;> rw [e] <;> rfl
  have hcreated : ¬ s.created ≤ numProd + j.1 := by
    intro hle
    rcases hj with e | e <;> simp [h.uncreatedCons j hle] at e
  have hconsumed := h.consumed_le
  have hproduced := h.produced_le
  have havail := h.avail_eq
  unfold consume
  split_ifs with hwait hdone
  · refine { h with
      left := ?_, wakeup := ?_, live := ?_,
      uncreatedCons := update_uncreated h.uncreatedCons hcreated _ }
    · exact imp_update (P := (ConsPc.left · = true)) h.left (by simp [ConsPc.left])
    · exact fun _ _ => .inl (by simp only; omega)
    · exact h.live.trans (congrArg _ (live_update s.cons j .waiting hlive.symm).symm)
  · have heq : s.unitsConsumed = totalUnits := by omega
    refine { h with left := fun _ _ => heq, wakeup := ?_, live := ?_, exit_iff := by simp,
                    uncreatedCons := update_uncreated h.uncreatedCons hcreated _ }
    · exact imp_update (P := (· = ConsPc.waiting)) h.wakeup (by simp)
    · simp only [live_done _ _ hlive, h.live]
  · have hunits : s.avail ≠ 0 := fun h0 => hwait ⟨h0, not_le.mp hdone⟩
    refine { h with avail_eq := ?_, consumed_le := ?_, left := ?_, wakeup := ?_, live := ?_,
                    exit_iff := ?_, uncreatedCons := update_uncreated h.uncreatedCons hcreated _ }
    · simp only; omega
    · simp only; omega
    · -- nobody has left yet, since units were still to be consumed
      refine imp_update (P := (ConsPc.left · = true)) (fun k hk => ?_) (by simp [ConsPc.left])
      exact absurd (h.left k hk).ge hdone
    · exact imp_update (P := (· = ConsPc.waiting)) h.wakeup (by simp)
    · exact h.live.trans (congrArg _ (live_update s.cons j .top hlive.symm).symm)
    · exact h.exit_iff

/-- A consumer that moves without entering a wait, and stays on its side of the loop's end. -/
theorem inv_move {s : State numProd numCons} (h : Inv totalUnits s) {j : Fin numCons}
    {old pc : ConsPc} (hj : s.cons j = old) (hleft : pc.left = old.left) (hwait : pc ≠ .waiting)
    (hold : old ≠ .uncreated) :
    Inv totalUnits { s with cons := Function.update s.cons j pc } := by
  subst hj
  refine { h with left := ?_, wakeup := ?_, live := ?_, uncreatedCons := ?_ }
  · exact imp_update (P := (ConsPc.left · = true)) h.left fun hl => h.left j (hleft ▸ hl)
  · exact imp_update (P := (· = ConsPc.waiting)) h.wakeup fun hw => absurd hw hwait
  · exact h.live.trans (congrArg _ (live_update s.cons j pc hleft).symm)
  · exact update_uncreated h.uncreatedCons (fun hle => hold (h.uncreatedCons j hle)) _

theorem inv_act {s s' : State numProd numCons} (h : Inv totalUnits s) (a : Act numProd numCons)
    (hs : act totalUnits s a = some s') : Inv totalUnits s' := by
  cases a with
  | create => exact inv_create h hs
  | produce i =>
    simp only [act, Option.ite_none_right_eq_some, Option.some.injEq] at hs
    exact hs.2 ▸ inv_produce h hs.1
  | broadcast i =>
    simp only [act] at hs
    split at hs
    · next d hd => exact Option.some.inj hs ▸ inv_broadcast h hd
    · cases hs
  | consume j =>
    simp only [act, Option.ite_none_right_eq_some, Option.some.injEq] at hs
    exact hs.2 ▸ inv_consume h hs.1
  | spurious j =>
    simp only [act, Option.ite_none_right_eq_some, Option.some.injEq] at hs
    obtain ⟨hj, rfl⟩ := hs
    exact inv_move h hj rfl (by decide) (by decide)
  | leave j =>
    simp only [act, Option.ite_none_right_eq_some, Option.some.injEq] at hs
    obtain ⟨hj, rfl⟩ := hs
    exact inv_move h hj rfl (by decide) (by decide)

theorem inv_reachable (hc : 1 ≤ numCons) (ht : 0 ≤ totalUnits) {s : State numProd numCons}
    (hs : (machine numProd numCons totalUnits).Reachable s) : Inv totalUnits s := by
  refine Machine.Reachable.invariant (I := Inv totalUnits) ?_ ?_ hs
  · rintro _ rfl
    exact inv_start hc ht
  · intro s a s' hi hstep
    simp only [machine, Option.ite_none_left_eq_some] at hstep
    exact inv_act hi a hstep.2

/-! ## Safety and the absence of a lost wake-up -/

theorem Inv.all_left {s : State numProd numCons} (h : Inv totalUnits s) (he : s.numLiveCons ≤ 0)
    (j : Fin numCons) : (s.cons j).left = true := by
  have hcard : #{k | (s.cons k).left = false} = 0 := by have := h.live; omega
  have hj := Finset.filter_eq_empty_iff.mp (card_eq_zero.mp hcard) (mem_univ j)
  simpa using hj

/-- When every producer has returned, nobody waits any more. -/
theorem Inv.no_waiting {s : State numProd numCons} (h : Inv totalUnits s) (hp : 1 ≤ numProd)
    (hall : ∀ i, s.prod i = .terminated) (j : Fin numCons) : s.cons j ≠ .waiting := by
  intro hj
  rcases h.wakeup j hj with hlt | ⟨i, d, hd⟩
  · exact hlt.ne (h.finished ⟨0, hp⟩ (.inl (hall _)))
  · simp [hall i] at hd

theorem prod_cons_cv_safe (hp : 1 ≤ numProd) (hc : 1 ≤ numCons) (ht : 0 ≤ totalUnits)
    {s : State numProd numCons} (hs : (machine numProd numCons totalUnits).Reachable s) :
    (s.avail = s.unitsProduced - s.unitsConsumed ∧ 0 ≤ s.avail ∧
      s.unitsConsumed ≤ s.unitsProduced ∧ s.unitsProduced ≤ totalUnits) ∧
    (∀ j, (s.cons j).left = true → s.unitsConsumed = totalUnits) ∧
    (s.exited = true → (∀ j, (s.cons j).left = true) ∧
      s.unitsProduced = totalUnits ∧ s.unitsConsumed = totalUnits) ∧
    (s.exited = false →
      (∃ i, s.prod i ≠ .terminated) ∨ ∃ j, s.cons j ≠ .waiting ∧ s.cons j ≠ .terminated) ∧
    ((∀ i, s.prod i = .terminated) → ∀ j, s.cons j ≠ .waiting) := by
  have h := inv_reachable hc ht hs
  have havail := h.avail_eq
  have hconsumed := h.consumed_le
  have hproduced := h.produced_le
  refine ⟨⟨havail, by omega, hconsumed, hproduced⟩, h.left, ?_, ?_, h.no_waiting hp⟩
  · intro he
    have hall := h.all_left (h.exit_iff.mp he)
    have heq := h.left ⟨0, hc⟩ (hall _)
    exact ⟨hall, by omega, heq⟩
  · intro hrun
    by_contra hstuck
    push Not at hstuck
    obtain ⟨hprod, hcons⟩ := hstuck
    -- every consumer has returned, so the last of them must have called `exit()`
    have hleft : ∀ j, (s.cons j).left = true := fun j => by
      rw [hcons j (h.no_waiting hp hprod j)]
      rfl
    have hlive : s.numLiveCons = 0 := by
      rw [h.live, Finset.filter_false_of_mem (fun j _ => by simp [hleft j])]
      rfl
    have hexit := h.exit_iff
    simp [hrun, hlive] at hexit

/-- One producer and one consumer of one unit: the consumer waits first, is woken by the
broadcast, consumes the unit, finds nothing left and exits. -/
theorem prod_cons_cv_safe_run : ∃ s : State 1 1, (machine 1 1 1).Reachable s ∧ s.exited = true ∧
    (∀ j, (s.cons j).left = true) ∧ s.unitsProduced = 1 ∧ s.unitsConsumed = 1 := by
  obtain ⟨s, hs, he⟩ := Machine.exists_reachable_of_exec (M := machine 1 1 1) rfl
    [.create, .create, .consume 0, .produce 0, .broadcast 0, .consume 0, .consume 0]
    (fun s => s.exited) (by decide)
  exact ⟨s, hs, he,
    (@prod_cons_cv_safe 1 1 1 le_rfl le_rfl (by decide) s hs).2.2.1 he⟩

end Tlpi.Threads.ProdConsCv
