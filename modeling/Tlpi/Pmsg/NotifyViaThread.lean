import Tlpi.Lib.Machine
import Tlpi.Lib.Mqueue

/-! The threads of `pmsg/mq_notify_via_thread.c`: `main()` and the notification threads, of which
each runs `threadFunc()` and is started by a consumed registration. Every thread registers again
and then drains the queue, so several may drain it at once. -/

namespace Tlpi.Pmsg.NotifyViaThread
open Lib

inductive Thread
  | notifySetup
  /-- `mq_getattr()` and `malloc()` at the start of `drainQueue()`. -/
  | getattr
  | receive
  /-- In `pause()`, for `main()`, or terminated. -/
  | finished
  /-- `mq_notify()` has failed. -/
  | errExit
  deriving DecidableEq

structure State (α : Type*) where
  queue : Mqueue α
  /-- `main()` comes first. -/
  threads : List Thread
  arrived : List α
  /-- The messages, each with the thread that has received it. -/
  received : List (ℕ × α)

inductive Act (α : Type*)
  | run (i : ℕ)
  | arrive (m : α)

variable {α : Type*}

def initial (msgs : List α) : State α where
  queue := ⟨msgs, false⟩
  threads := [.notifySetup]
  arrived := msgs
  received := []

/-- The next step of thread `i`. -/
def run (s : State α) (i : ℕ) : Option (State α) :=
  match s.threads[i]? with
  | some .notifySetup =>
    match s.queue.notify with
    | some q => some { s with queue := q, threads := s.threads.set i .getattr }
    | none => some { s with threads := s.threads.set i .errExit }
  | some .getattr => some { s with threads := s.threads.set i .receive }
  | some .receive =>
    match s.queue.receive with
    | some (m, q) => some { s with queue := q, received := s.received ++ [(i, m)] }
    | none => some { s with threads := s.threads.set i .finished }
  | some .finished | some .errExit | none => none

def step (prio : α → ℕ) (s : State α) : Act α → Option (State α)
  | .run i => run s i
  | .arrive m =>
    some { s with
      queue := s.queue.send prio m
      threads := s.threads ++ List.replicate s.queue.notifies.toNat .notifySetup
      arrived := s.arrived ++ [m] }

def machine (prio : α → ℕ) : Machine (State α) (Act α) where
  init s := ∃ msgs, s = initial msgs
  step := step prio

def Thread.draining : Thread → Bool
  | .getattr | .receive => true
  | _ => false

structure Inv (s : State α) : Prop where
  token : s.queue.registered.toNat + s.threads.count .notifySetup = 1
  drained : s.queue.registered = true → s.queue.msgs = [] ∨ ∃ t ∈ s.threads, t.draining = true
  alive : .errExit ∉ s.threads
  perm : (s.received.map Prod.snd ++ s.queue.msgs).Perm s.arrived

theorem inv_initial (msgs : List α) : Inv (initial msgs) where
  token := rfl
  drained h := nomatch h
  alive := by simp [initial]
  perm := .refl msgs

section Step
variable {prio : α → ℕ} {s s' : State α} {i : ℕ}

theorem count_set {threads : List Thread} {t u : Thread} (hi : threads[i]? = some t)
    (ht : t ≠ .notifySetup) (hu : u ≠ .notifySetup) :
    (threads.set i u).count .notifySetup = threads.count .notifySetup := by
  obtain ⟨hlt, hget⟩ := List.getElem?_eq_some_iff.mp hi
  rw [List.count_set hlt, hget]
  simp [ht, hu]

/-- A thread goes on, with the queue as it is. -/
theorem inv_set (h : Inv s) {t u : Thread} (hi : s.threads[i]? = some t) (ht : t ≠ .notifySetup)
    (hu : u ≠ .notifySetup) (hdrained : s.queue.msgs = [] ∨ u.draining = true)
    (halive : u ≠ .errExit) : Inv { s with threads := s.threads.set i u } where
  token := by
    rw [count_set hi ht hu]
    exact h.token
  drained _ := by
    obtain ⟨hlt, -⟩ := List.getElem?_eq_some_iff.mp hi
    exact hdrained.imp_right fun hdr => ⟨u, List.mem_set hlt u, hdr⟩
  alive hmem := (List.mem_or_eq_of_mem_set hmem).elim h.alive (halive ∘ Eq.symm)
  perm := h.perm

theorem inv_notifySetup (h : Inv s) (hi : s.threads[i]? = some .notifySetup)
    (hs : run s i = some s') : Inv s' := by
  obtain ⟨hlt, hget⟩ := List.getElem?_eq_some_iff.mp hi
  have hpos : 0 < s.threads.count .notifySetup :=
    List.count_pos_iff.mpr (hget ▸ List.getElem_mem hlt)
  have htoken := h.token
  have hfree : s.queue.registered = false := Bool.toNat_eq_zero.mp (by omega)
  have hnotify : s.queue.notify = some { s.queue with registered := true } := by
    rw [Mqueue.notify, if_neg (by simp [hfree])]
  simp only [run, hi, hnotify, Option.some.injEq] at hs
  subst hs
  exact {
    token := by
      rw [List.count_set hlt, hget]
      simp
      omega
    drained := fun _ => .inr ⟨.getattr, List.mem_set hlt _, rfl⟩
    alive := fun hmem => (List.mem_or_eq_of_mem_set hmem).elim h.alive nofun
    perm := h.perm }

theorem inv_run (h : Inv s) (hs : run s i = some s') : Inv s' := by
  cases hi : s.threads[i]? with
  | none => simp [run, hi] at hs
  | some t =>
    cases t with
    | notifySetup => exact inv_notifySetup h hi hs
    | getattr =>
      simp only [run, hi, Option.some.injEq] at hs
      exact hs ▸ inv_set h hi (by simp) (by simp) (.inr rfl) (by simp)
    | receive =>
      cases hq : s.queue.receive with
      | none =>
        simp only [run, hi, hq, Option.some.injEq] at hs
        exact hs ▸ inv_set h hi (by simp) (by simp) (.inl (Mqueue.receive_eq_none.mp hq)) (by simp)
      | some mq =>
        simp only [run, hi, hq, Option.some.injEq] at hs
        subst hs
        obtain ⟨hmsgs, hreg⟩ := Mqueue.receive_eq_some hq
        exact {
          token := by simpa [hreg] using h.token
          drained := fun _ => .inr ⟨.receive, List.mem_of_getElem? hi, rfl⟩
          alive := h.alive
          perm := by simpa [hmsgs] using h.perm }
    | finished => simp [run, hi] at hs
    | errExit => simp [run, hi] at hs

theorem inv_arrive (h : Inv s) (prio : α → ℕ) (m : α) :
    Inv { s with
      queue := s.queue.send prio m
      threads := s.threads ++ List.replicate s.queue.notifies.toNat .notifySetup
      arrived := s.arrived ++ [m] } where
  token := by
    have htoken := h.token
    have hreg := s.queue.registered_send prio m
    rw [List.count_append, List.count_replicate_self]
    dsimp only
    omega
  drained hr := by
    obtain ⟨hreg, hne⟩ := Mqueue.msgs_of_registered_send hr
    obtain ⟨t, ht, hdr⟩ := (h.drained hreg).resolve_left hne
    exact .inr ⟨t, List.mem_append_left _ ht, hdr⟩
  alive hmem := by
    rcases List.mem_append.mp hmem with hmem | hmem
    · exact h.alive hmem
    · exact nomatch List.eq_of_mem_replicate hmem
  perm := (Mqueue.perm_send prio m _).trans (h.perm.append_right [m])

theorem inv_step (h : Inv s) (a : Act α) (hs : step prio s a = some s') : Inv s' := by
  cases a with
  | run i => exact inv_run h hs
  | arrive m =>
    cases hs
    exact inv_arrive h prio m

theorem inv_of_reachable (hs : (machine prio).Reachable s) : Inv s := by
  refine hs.invariant (I := Inv) ?_ fun _ a _ hi ha => inv_step hi a ha
  rintro _ ⟨msgs, rfl⟩
  exact inv_initial msgs

end Step

/-- One registration or one thread that is about to renew it, and no message without a thread that
will receive it. -/
theorem mq_notify_via_thread_drains {prio : α → ℕ} {s : State α}
    (hs : (machine prio).Reachable s) :
    s.queue.registered.toNat + s.threads.count .notifySetup = 1 ∧
    .errExit ∉ s.threads ∧
    (s.received.map Prod.snd ++ s.queue.msgs).Perm s.arrived ∧
    ((∀ t ∈ s.threads, t.draining = false ∧ t ≠ .notifySetup) →
      s.queue.msgs = [] ∧ s.queue.registered = true) := by
  have h := inv_of_reachable hs
  refine ⟨h.token, h.alive, h.perm, fun hidle => ?_⟩
  have hcount : s.threads.count .notifySetup = 0 :=
    List.count_eq_zero.mpr fun hmem => (hidle _ hmem).2 rfl
  have hreg : s.queue.registered = true := by
    have htoken := h.token
    rw [hcount, add_zero] at htoken
    exact Bool.toNat_eq_one.mp htoken
  refine ⟨(h.drained hreg).resolve_right ?_, hreg⟩
  rintro ⟨t, ht, hdr⟩
  rw [(hidle t ht).1] at hdr
  cases hdr

/-- A message arrives while `main()` drains the queue and is received by `main()`, before the
notification thread that it has started registers again. -/
theorem mq_notify_via_thread_drains_run : ∃ s : State ℕ, (machine id).Reachable s ∧
    s.received = [(0, 7), (0, 9)] ∧ s.queue.msgs = [] ∧ s.queue.registered = true := by
  obtain ⟨s, hs, hp⟩ := Machine.exists_reachable_of_exec (M := machine (id : ℕ → ℕ)) ⟨[7], rfl⟩
    [.run 0, .run 0, .run 0, .arrive 9, .run 0, .run 0, .run 1, .run 1, .run 1]
    (fun s => s.received = [(0, 7), (0, 9)] ∧
      ∀ t ∈ s.threads, t.draining = false ∧ t ≠ .notifySetup) (by decide)
  obtain ⟨hreceived, hidle⟩ := of_decide_eq_true hp
  exact ⟨s, hs, hreceived, (mq_notify_via_thread_drains hs).2.2.2 hidle⟩

end Tlpi.Pmsg.NotifyViaThread
