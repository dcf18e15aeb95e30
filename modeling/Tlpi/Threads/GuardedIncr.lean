import Tlpi.Lib.Machine
import Tlpi.Lib.Progress
import Tlpi.Threads.ThreadIncr
import Mathlib.Tactic

/-! The two threads of `threads/thread_incr_mutex.c`, `threads/thread_incr_spinlock.c`,
`threads/thread_incr_rwlock.c` and `psem/thread_incr_psem.c`, which keep each other out of the load
and the store of `glob` with a mutex, a spinlock, a read/write lock and a semaphore. -/

namespace Tlpi.Threads.GuardedIncr
open Lib ThreadIncr

/-- What the programs use to keep the threads apart, with the facts that matter: one thread at a
time has it, and whoever gives it back makes it free. -/
structure Guard where
  Lock : Type
  initial : Lock
  acquire : Tid → Lock → Option Lock
  release : Tid → Lock → Option Lock
  Free : Lock → Prop
  Held : Tid → Lock → Prop
  free_initial : Free initial
  acquire_of_free : ∀ t l, Free l → ∃ l', acquire t l = some l' ∧ Held t l'
  acquire_of_held : ∀ t u l, Held u l → acquire t l = none
  release_of_held : ∀ t l, Held t l → ∃ l', release t l = some l' ∧ Free l'

/-- `mtx` and its owner. -/
def mutex : Guard where
  Lock := Option Tid
  initial := none
  acquire t owner := if owner = none then some (some t) else none
  release t owner := if owner = some t then some none else none
  Free owner := owner = none
  Held t owner := owner = some t
  free_initial := rfl
  acquire_of_free t _ h := ⟨some t, if_pos h, rfl⟩
  acquire_of_held _ u _ h := if_neg (h ▸ Option.some_ne_none u)
  release_of_held _ _ h := ⟨none, if_pos h, rfl⟩

/-- Whether `splock` is locked. A thread that spins goes on as one that is blocked. -/
def spinlock : Guard where
  Lock := Bool
  initial := false
  acquire _ locked := if locked then none else some true
  release _ _ := some false
  Free locked := locked = false
  Held _ locked := locked = true
  free_initial := rfl
  acquire_of_free _ _ h := ⟨true, if_neg (by simp [h]), rfl⟩
  acquire_of_held _ _ _ h := if_pos h
  release_of_held _ _ _ := ⟨false, rfl, rfl⟩

/-- The number of readers and the writer that have `rwlock`; the program only asks for it as a
writer. -/
def rwlock : Guard where
  Lock := ℕ × Option Tid
  initial := (0, none)
  acquire t
    | (0, none) => some (0, some t)
    | _ => none
  release t
    | (readers, some u) => if u = t then some (readers, none) else none
    | (readers + 1, none) => some (readers, none)
    | (0, none) => none
  Free l := l = (0, none)
  Held t l := l = (0, some t)
  free_initial := rfl
  acquire_of_free t _ h := ⟨(0, some t), h ▸ rfl, rfl⟩
  acquire_of_held _ _ _ h := h ▸ rfl
  release_of_held t _ h := ⟨(0, none), by rw [h]; exact if_pos rfl, rfl⟩

/-- The value of `sem`, initialised to 1. -/
def semaphore : Guard where
  Lock := ℕ
  initial := 1
  acquire _ value := if 0 < value then some (value - 1) else none
  release _ value := some (value + 1)
  Free value := value = 1
  Held _ value := value = 0
  free_initial := rfl
  acquire_of_free _ _ h := ⟨0, by rw [h]; rfl, rfl⟩
  acquire_of_held _ _ value h := if_neg (show ¬ 0 < value by omega)
  release_of_held _ _ h := ⟨1, h ▸ rfl, rfl⟩

inductive Program
  | mutex
  | spinlock
  | rwlock
  | psem

def Program.guard : Program → Guard
  | mutex => GuardedIncr.mutex
  | spinlock => GuardedIncr.spinlock
  | rwlock => GuardedIncr.rwlock
  | psem => semaphore

inductive Pc
  | top
  | locked
  | loaded (loc : ℕ)
  | stored
  deriving DecidableEq

variable {G : Guard}

structure State (G : Guard) where
  glob : ℕ
  lock : G.Lock
  iterations : Tid → ℕ
  pc : Tid → Pc

inductive Act
  | acquire (t : Tid)
  | load (t : Tid)
  | store (t : Tid)
  | release (t : Tid)

def start (G : Guard) : State G := ⟨0, G.initial, fun _ => 0, fun _ => .top⟩

/-- `threadFunc()` of the programs. -/
def step (loops : ℕ) (s : State G) : Act → Option (State G)
  | .acquire t =>
    if s.pc t = .top ∧ s.iterations t < loops then (G.acquire t s.lock).map fun l =>
      { s with lock := l, pc := Function.update s.pc t .locked }
    else none
  | .load t =>
    if s.pc t = .locked then some { s with pc := Function.update s.pc t (.loaded s.glob) } else none
  | .store t =>
    match s.pc t with
    | .loaded loc =>
      if loc < intMax then some { s with glob := loc + 1, pc := Function.update s.pc t .stored }
      else none
    | _ => none
  | .release t =>
    if s.pc t = .stored then (G.release t s.lock).map fun l =>
      { s with
        lock := l
        iterations := Function.update s.iterations t (s.iterations t + 1)
        pc := Function.update s.pc t .top }
    else none

def machine (G : Guard) (loops : ℕ) : Machine (State G) Act where
  init s := s = start G
  step := step loops

def State.Finished (loops : ℕ) (s : State G) : Prop :=
  ∀ t, s.pc t = .top ∧ s.iterations t = loops

def State.total (s : State G) : ℕ := s.iterations .t1 + s.iterations .t2

/-- Where the thread with the lock is, and what is in `glob` then. -/
inductive Inside (s : State G) (u : Tid) : Prop
  | locked (h : s.pc u = .locked) (hglob : s.glob = s.total)
  | loaded (h : s.pc u = .loaded s.glob) (hglob : s.glob = s.total)
  | stored (h : s.pc u = .stored) (hglob : s.glob = s.total + 1)

inductive Inv (loops : ℕ) (s : State G) : Prop
  | free (hfree : G.Free s.lock) (htop : ∀ t, s.pc t = .top) (hglob : s.glob = s.total)
      (hle : ∀ t, s.iterations t ≤ loops)
  | held (u : Tid) (hheld : G.Held u s.lock) (htop : ∀ t, t ≠ u → s.pc t = .top)
      (hinside : Inside s u) (hlt : s.iterations u < loops) (hle : ∀ t, s.iterations t ≤ loops)

variable {loops : ℕ} {s s' : State G}

theorem inv_start (G : Guard) (loops : ℕ) : Inv loops (start G) :=
  .free G.free_initial (fun _ => rfl) rfl fun _ => Nat.zero_le loops

theorem Inside.pc_ne_top {u : Tid} (h : Inside s u) : s.pc u ≠ .top := by
  cases h with
  | locked h | loaded h | stored h => simp [h]

/-- The thread that is past `top` has the lock. -/
theorem Inv.inside {t : Tid} (h : Inv loops s) (ht : s.pc t ≠ .top) :
    G.Held t s.lock ∧ (∀ t', t' ≠ t → s.pc t' = .top) ∧ Inside s t ∧ s.iterations t < loops := by
  cases h with
  | free _ htop => exact absurd (htop t) ht
  | held u hheld htop hinside hlt _ =>
    obtain rfl : t = u := by
      by_contra hne
      exact ht (htop t hne)
    exact ⟨hheld, htop, hinside, hlt⟩

theorem Inv.iterations_le (h : Inv loops s) (t : Tid) : s.iterations t ≤ loops := by
  cases h with
  | free _ _ _ hle | held _ _ _ _ _ hle => exact hle t

theorem total_release (iterations : Tid → ℕ) (t : Tid) :
    Function.update iterations t (iterations t + 1) .t1 +
      Function.update iterations t (iterations t + 1) .t2 =
    iterations .t1 + iterations .t2 + 1 := by
  cases t <;> simp [Function.update] <;> omega

theorem inv_step (h : Inv loops s) {a : Act} (ha : step loops s a = some s') : Inv loops s' := by
  have hle := h.iterations_le
  cases a with
  | acquire t =>
    obtain ⟨⟨htop, hlt⟩, ha⟩ := Option.ite_none_right_eq_some.mp ha
    obtain ⟨l, hl, rfl⟩ := Option.map_eq_some_iff.mp ha
    cases h with
    | free hfree hall hglob _ =>
      obtain ⟨l', hl', hheld⟩ := G.acquire_of_free t s.lock hfree
      obtain rfl := Option.some.inj (hl'.symm.trans hl)
      refine .held t hheld (fun t' hne => ?_) (.locked ?_ hglob) hlt hle
      · exact (Function.update_of_ne hne _ _).trans (hall t')
      · exact Function.update_self ..
    | held u hheld => exact absurd (hl.symm.trans (G.acquire_of_held t u s.lock hheld)) (by simp)
  | load t =>
    obtain ⟨hpc, ha⟩ := Option.ite_none_right_eq_some.mp ha
    obtain rfl := Option.some.inj ha
    obtain ⟨hheld, hothers, hinside, hlt⟩ := h.inside (t := t) (by simp [hpc])
    refine .held t hheld (fun t' hne => ?_) (.loaded (Function.update_self ..) ?_) hlt hle
    · exact (Function.update_of_ne hne _ _).trans (hothers t' hne)
    · cases hinside with
      | locked _ hglob => exact hglob
      | loaded h | stored h => exact absurd (hpc.symm.trans h) (by simp)
  | store t =>
    cases hpc : s.pc t with
    | loaded loc =>
      simp only [step, hpc] at ha
      obtain ⟨-, ha⟩ := Option.ite_none_right_eq_some.mp ha
      obtain rfl := Option.some.inj ha
      obtain ⟨hheld, hothers, hinside, hlt⟩ := h.inside (t := t) (by simp [hpc])
      refine .held t hheld (fun t' hne => ?_) (.stored (Function.update_self ..) ?_) hlt hle
      · exact (Function.update_of_ne hne _ _).trans (hothers t' hne)
      · cases hinside with
        | loaded h hglob =>
          obtain rfl := Pc.loaded.inj (hpc.symm.trans h)
          exact congrArg (· + 1) hglob
        | locked h | stored h => exact absurd (hpc.symm.trans h) (by simp)
    | _ => simp [step, hpc] at ha
  | release t =>
    obtain ⟨hpc, ha⟩ := Option.ite_none_right_eq_some.mp ha
    obtain ⟨l, hl, rfl⟩ := Option.map_eq_some_iff.mp ha
    obtain ⟨hheld, hothers, hinside, hlt⟩ := h.inside (t := t) (by simp [hpc])
    obtain ⟨l', hl', hfree⟩ := G.release_of_held t s.lock hheld
    obtain rfl := Option.some.inj (hl'.symm.trans hl)
    refine .free hfree (fun t' => ?_) ?_ fun t' => ?_
    · by_cases hne : t' = t
      · exact hne ▸ Function.update_self ..
      · exact (Function.update_of_ne hne _ _).trans (hothers t' hne)
    · cases hinside with
      | stored _ hglob => exact hglob.trans (total_release s.iterations t).symm
      | locked h | loaded h => exact absurd (hpc.symm.trans h) (by simp)
    · by_cases hne : t' = t
      · subst hne
        simpa using hlt
      · simpa only [Function.update_of_ne hne] using hle t'

theorem inv_of_reachable (hs : (machine G loops).Reachable s) : Inv loops s := by
  refine hs.invariant (I := Inv loops) ?_ fun _ _ _ h ha => inv_step h ha
  rintro _ rfl
  exact inv_start G loops

/-! ### Every run ends -/

def Pc.past : Pc → ℕ
  | .top => 0
  | .locked => 1
  | .loaded _ => 2
  | .stored => 3

def left (loops iterations : ℕ) (pc : Pc) : ℕ := 4 * (loops - iterations) - pc.past

def weight (loops : ℕ) (s : State G) : ℕ :=
  left loops (s.iterations .t1) (s.pc .t1) + left loops (s.iterations .t2) (s.pc .t2)

/-- One thread goes on and the other stays where it is. -/
theorem weight_lt (s : State G) (t : Tid) (n : ℕ) (pc : Pc) (glob : ℕ) (l : G.Lock)
    (h : left loops n pc < left loops (s.iterations t) (s.pc t)) :
    weight loops ⟨glob, l, Function.update s.iterations t n, Function.update s.pc t pc⟩ <
      weight loops s := by
  cases t with
  | t1 => exact Nat.add_lt_add_right h _
  | t2 => exact Nat.add_lt_add_left h _

theorem weight_pc_lt (s : State G) (t : Tid) (pc : Pc) (glob : ℕ) (l : G.Lock)
    (hlt : s.iterations t < loops) (hpast : (s.pc t).past < pc.past) (h3 : pc.past ≤ 3) :
    weight loops ⟨glob, l, s.iterations, Function.update s.pc t pc⟩ < weight loops s := by
  have hleft : left loops (s.iterations t) pc < left loops (s.iterations t) (s.pc t) := by
    simp only [left]
    omega
  have hw := weight_lt s t (s.iterations t) pc glob l hleft
  rwa [Function.update_eq_self] at hw

theorem weight_step (h : Inv loops s) {a : Act} (ha : step loops s a = some s') :
    weight loops s' < weight loops s := by
  cases a with
  | acquire t =>
    obtain ⟨⟨htop, hlt⟩, ha⟩ := Option.ite_none_right_eq_some.mp ha
    obtain ⟨l, -, rfl⟩ := Option.map_eq_some_iff.mp ha
    exact weight_pc_lt s t .locked s.glob l hlt (by simp [htop, Pc.past]) (by decide)
  | load t =>
    obtain ⟨hpc, ha⟩ := Option.ite_none_right_eq_some.mp ha
    obtain rfl := Option.some.inj ha
    have hlt := (h.inside (t := t) (by simp [hpc])).2.2.2
    exact weight_pc_lt s t (.loaded s.glob) s.glob s.lock hlt (by simp [hpc, Pc.past])
      (by simp [Pc.past])
  | store t =>
    cases hpc : s.pc t with
    | loaded loc =>
      simp only [step, hpc] at ha
      obtain ⟨-, ha⟩ := Option.ite_none_right_eq_some.mp ha
      obtain rfl := Option.some.inj ha
      have hlt := (h.inside (t := t) (by simp [hpc])).2.2.2
      exact weight_pc_lt s t .stored (loc + 1) s.lock hlt (by simp [hpc, Pc.past]) (by decide)
    | _ => simp [step, hpc] at ha
  | release t =>
    obtain ⟨hpc, ha⟩ := Option.ite_none_right_eq_some.mp ha
    obtain ⟨l, -, rfl⟩ := Option.map_eq_some_iff.mp ha
    have hlt := (h.inside (t := t) (by simp [hpc])).2.2.2
    exact weight_lt s t (s.iterations t + 1) .top s.glob l
      (by simp only [left, hpc, Pc.past]; omega)

theorem loc_lt {t : Tid} {loc : ℕ} (h : Inv loops s) (hpc : s.pc t = .loaded loc) :
    loc < 2 * loops := by
  obtain ⟨-, -, hinside, hlt⟩ := h.inside (t := t) (by simp [hpc])
  have h1 := h.iterations_le .t1
  have h2 := h.iterations_le .t2
  cases hinside with
  | loaded hpc' hglob =>
    obtain rfl := Pc.loaded.inj (hpc.symm.trans hpc')
    rw [hglob, State.total]
    cases t <;> omega
  | locked hpc' | stored hpc' => exact absurd (hpc.symm.trans hpc') (by simp)

theorem finished_of_stuck (hfits : 2 * loops ≤ intMax) (h : Inv loops s)
    (hs : (machine G loops).Stuck s) : s.Finished loops := by
  have htop : ∀ t, s.pc t = .top := by
    intro t
    by_contra hne
    obtain ⟨hheld, -, -, -⟩ := h.inside hne
    cases hpc : s.pc t with
    | top => exact hne hpc
    | locked =>
      have hload := hs (.load t)
      simp [machine, step, hpc] at hload
    | loaded loc =>
      have hstore := hs (.store t)
      simp [machine, step, hpc, (loc_lt h hpc).trans_le hfits] at hstore
    | stored =>
      have hrelease := hs (.release t)
      obtain ⟨l, hl, -⟩ := G.release_of_held t s.lock hheld
      simp [machine, step, hpc, hl] at hrelease
  intro t
  refine ⟨htop t, le_antisymm (h.iterations_le t) ?_⟩
  by_contra hlt
  cases h with
  | free hfree =>
    have hacquire := hs (.acquire t)
    obtain ⟨l, hl, -⟩ := G.acquire_of_free t s.lock hfree
    simp [machine, step, htop t, not_le.mp hlt, hl] at hacquire
  | held u _ _ hinside => exact hinside.pc_ne_top (htop u)

theorem total_of_finished (h : Inv loops s) (hf : s.Finished loops) : s.glob = 2 * loops := by
  cases h with
  | free _ _ hglob => rw [hglob, State.total, (hf .t1).2, (hf .t2).2, two_mul]
  | held u _ _ hinside => exact absurd (hf u).1 hinside.pc_ne_top

theorem guarded_completes (G : Guard) {loops : ℕ} (hfits : 2 * loops ≤ intMax) :
    (machine G loops).Completes fun s => s.Finished loops ∧ s.glob = 2 * loops :=
  Machine.completes_of_weight (Inv loops) (weight loops) (fun _ h => h ▸ inv_start G loops)
    (fun _ _ _ h ha => inv_step h ha) (fun _ _ _ h ha => weight_step h ha) fun _ h hs =>
      ⟨finished_of_stuck hfits h hs, total_of_finished h (finished_of_stuck hfits h hs)⟩

/-- In all four programs no thread is ever inside while the other is, every run comes to its end,
and no increment is lost, as long as their number is an `int`. -/
theorem guarded_incr_exact (p : Program) (loops : ℕ) (hfits : 2 * loops ≤ intMax) :
    (machine p.guard loops).Completes (fun s => s.Finished loops ∧ s.glob = 2 * loops) ∧
      ∀ s, (machine p.guard loops).Reachable s →
        ∀ t t', s.pc t ≠ .top → s.pc t' ≠ .top → t = t' := by
  refine ⟨guarded_completes p.guard hfits, fun s hs t t' ht ht' => ?_⟩
  by_contra hne
  exact ht (((inv_of_reachable hs).inside ht').2.1 t hne)

/-- The default of ten million loops. -/
theorem guarded_incr_exact_default :
    (machine Program.rwlock.guard 10000000).Completes
      fun s => s.Finished 10000000 ∧ s.glob = 20000000 :=
  (guarded_incr_exact .rwlock 10000000 (by decide)).1

end Tlpi.Threads.GuardedIncr
