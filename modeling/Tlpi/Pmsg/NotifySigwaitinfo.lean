import Tlpi.Lib.Machine
import Tlpi.Lib.Mqueue

/-! The loop of `pmsg/mq_notify_sigwaitinfo.c`, which accepts the signal with `sigwaitinfo()`.
Messages arrive at any time, also before the first `mq_notify()`. -/

namespace Tlpi.Pmsg.NotifySigwaitinfo
open Lib

inductive Main
  /-- The `mq_notify()` before the loop. -/
  | first
  | sigwaitinfo
  | register
  | receive
  /-- `mq_notify()` has failed. -/
  | errExit
  deriving DecidableEq

structure State (α : Type*) where
  queue : Mqueue α
  /-- NOTIFY_SIG is pending; it is blocked throughout. -/
  pending : Bool
  main : Main
  arrived : List α
  received : List α

inductive Act (α : Type*)
  | main
  | arrive (m : α)

variable {α : Type*}

/-- After `mq_open()`, with the messages that were queued before. -/
def initial (msgs : List α) : State α := ⟨⟨msgs, false⟩, false, .first, msgs, []⟩

def main (s : State α) : Option (State α) :=
  match s.main with
  | .first =>
    match s.queue.notify with
    | some queue => some { s with main := .sigwaitinfo, queue }
    | none => some { s with main := .errExit }
  | .sigwaitinfo => if s.pending then some { s with main := .register, pending := false } else none
  | .register =>
    match s.queue.notify with
    | some queue => some { s with main := .receive, queue }
    | none => some { s with main := .errExit }
  | .receive =>
    match s.queue.receive with
    | some (m, queue) => some { s with queue, received := s.received ++ [m] }
    | none => some { s with main := .sigwaitinfo }
  | .errExit => none

def step (prio : α → ℕ) (s : State α) : Act α → Option (State α)
  | .main => main s
  | .arrive m =>
    some { s with
      queue := s.queue.send prio m
      pending := s.pending || s.queue.notifies
      arrived := s.arrived ++ [m] }

def machine (prio : α → ℕ) : Machine (State α) (Act α) where
  init s := ∃ msgs, s = initial msgs
  step := step prio

/-- The queue is empty when the program registers for the first time. -/
def FirstEmpty (s : State α) (a : Act α) : Prop :=
  match a with
  | .main => s.main = .first → s.queue.msgs = []
  | .arrive _ => True

/-! ## With an empty queue -/

/-- A registration in force, the signal that it has generated and one that is about to be made. -/
def tokens (s : State α) : ℕ :=
  s.queue.registered.toNat + s.pending.toNat +
    (decide (s.main = .first ∨ s.main = .register)).toNat

/-- What holds however the program was started. -/
structure Safe (s : State α) : Prop where
  token : tokens s = 1
  alive : s.main ≠ .errExit
  perm : (s.received ++ s.queue.msgs).Perm s.arrived

theorem safe_initial (msgs : List α) : Safe (initial msgs) where
  token := rfl
  alive h := nomatch h
  perm := .refl msgs

theorem Safe.free {s : State α} (h : Safe s) (hm : s.main = .first ∨ s.main = .register) :
    s.queue.registered = false ∧ s.pending = false := by
  have htoken := h.token
  simp only [tokens, hm, decide_true, Bool.toNat_true, add_eq_right] at htoken
  revert htoken
  cases s.queue.registered <;> cases s.pending <;> simp

theorem Safe.notify {s : State α} (h : Safe s) (hm : s.main = .first ∨ s.main = .register) :
    s.queue.notify = some { s.queue with registered := true } := by
  rw [Mqueue.notify, if_neg (by simp [(h.free hm).1])]

/-- What a step of `main()` can be. -/
theorem Safe.main_cases {s s' : State α} (h : Safe s) (hs : main s = some s') :
    (s.main = .first ∧
      s' = { s with main := .sigwaitinfo, queue := { s.queue with registered := true } }) ∨
    (s.main = .sigwaitinfo ∧ s.pending = true ∧
      s' = { s with main := .register, pending := false }) ∨
    (s.main = .register ∧
      s' = { s with main := .receive, queue := { s.queue with registered := true } }) ∨
    (s.main = .receive ∧ ∃ m queue, s.queue.receive = some (m, queue) ∧
      s' = { s with queue, received := s.received ++ [m] }) ∨
    (s.main = .receive ∧ s.queue.msgs = [] ∧ s' = { s with main := .sigwaitinfo }) := by
  rw [main] at hs
  cases hm : s.main with
  | first =>
    simp only [hm, h.notify (.inl hm)] at hs
    exact .inl ⟨rfl, (Option.some.inj hs).symm⟩
  | sigwaitinfo =>
    rw [hm] at hs
    obtain ⟨hp, hs⟩ := Option.ite_none_right_eq_some.mp hs
    exact .inr (.inl ⟨rfl, hp, (Option.some.inj hs).symm⟩)
  | register =>
    simp only [hm, h.notify (.inr hm)] at hs
    exact .inr (.inr (.inl ⟨rfl, (Option.some.inj hs).symm⟩))
  | receive =>
    cases hq : s.queue.receive with
    | none =>
      simp only [hm, hq] at hs
      exact .inr (.inr (.inr (.inr ⟨rfl, Mqueue.receive_eq_none.mp hq, (Option.some.inj hs).symm⟩)))
    | some mq =>
      simp only [hm, hq] at hs
      exact .inr (.inr (.inr (.inl ⟨rfl, mq.1, mq.2, rfl, (Option.some.inj hs).symm⟩)))
  | errExit => exact absurd hm h.alive

theorem safe_main {s s' : State α} (h : Safe s) (hs : main s = some s') : Safe s' := by
  have htoken := h.token
  rcases h.main_cases hs with
    ⟨hm, rfl⟩ | ⟨hm, hp, rfl⟩ | ⟨hm, rfl⟩ | ⟨hm, m, q, hq, rfl⟩ | ⟨hm, -, rfl⟩
  · exact ⟨by simp [tokens, (h.free (.inl hm)).2], by simp, h.perm⟩
  · exact ⟨by simpa [tokens, hm, hp] using htoken, by simp, h.perm⟩
  · exact ⟨by simp [tokens, (h.free (.inr hm)).2], by simp, h.perm⟩
  · obtain ⟨hmsgs, hreg⟩ := Mqueue.receive_eq_some hq
    exact ⟨by simpa [tokens, hm, hreg] using htoken, by simp [hm], by simpa [hmsgs] using h.perm⟩
  · exact ⟨by simpa [tokens, hm] using htoken, by simp, h.perm⟩

theorem safe_arrive {s : State α} (h : Safe s) (prio : α → ℕ) (m : α) :
    Safe { s with
      queue := s.queue.send prio m
      pending := s.pending || s.queue.notifies
      arrived := s.arrived ++ [m] } where
  token := by
    have htoken := h.token
    have hreg := s.queue.registered_send prio m
    simp only [tokens] at htoken ⊢
    cases hn : s.queue.notifies with
    | false =>
      rw [hn, Bool.toNat_false, add_zero] at hreg
      rwa [Bool.or_false, hreg]
    | true =>
      rw [hn, Bool.toNat_true] at hreg
      have hpending : s.pending.toNat = 0 := by omega
      rw [Bool.or_true, Bool.toNat_true]
      omega
  alive := h.alive
  perm := (Mqueue.perm_send prio m s.received).trans (h.perm.append_right [m])

theorem safe_step {prio : α → ℕ} {s s' : State α} (h : Safe s) (a : Act α)
    (hs : step prio s a = some s') : Safe s' := by
  cases a with
  | main => exact safe_main h hs
  | arrive m =>
    cases hs
    exact safe_arrive h prio m

theorem safe_of_reachable {prio : α → ℕ} {s : State α} (hs : (machine prio).Reachable s) :
    Safe s := by
  refine hs.invariant (I := Safe) ?_ fun _ a _ h ha => safe_step h a ha
  rintro _ ⟨msgs, rfl⟩
  exact safe_initial msgs

/-- While the registration is in force, the queue is empty or being read. -/
def Drained (s : State α) : Prop :=
  s.queue.registered = true → s.main = .receive ∨ s.queue.msgs = []

theorem drained_step {prio : α → ℕ} {s s' : State α} (h : Safe s) (hd : Drained s) {a : Act α}
    (hG : FirstEmpty s a) (hs : step prio s a = some s') : Drained s' := by
  cases a with
  | main =>
    rcases h.main_cases hs with ⟨hm, rfl⟩ | ⟨hm, -, rfl⟩ | ⟨-, rfl⟩ | ⟨hm, m, q, -, rfl⟩ |
      ⟨-, hmsgs, rfl⟩
    · exact fun _ => .inr (hG hm)
    · intro hr
      exact (hd hr).imp (fun h' => absurd (hm.symm.trans h') (by simp)) id
    · exact fun _ => .inl rfl
    · exact fun _ => .inl hm
    · exact fun _ => .inr hmsgs
  | arrive m =>
    cases hs
    intro hr
    obtain ⟨hreg, hne⟩ := Mqueue.msgs_of_registered_send hr
    exact .inl ((hd hreg).resolve_right hne)

theorem drained_of_reachable {prio : α → ℕ} {s : State α}
    (hs : (machine prio).ReachableUnder FirstEmpty s) : Safe s ∧ Drained s := by
  refine hs.invariant (I := fun s => Safe s ∧ Drained s) ?_ fun _ a _ h hG ha =>
    ⟨safe_step h.1 a ha, drained_step h.1 h.2 hG ha⟩
  rintro _ ⟨msgs, rfl⟩
  exact ⟨safe_initial msgs, fun h => nomatch h⟩

/-! ## With a message in the queue -/

/-- The registration is never consumed, and no signal comes. -/
structure Stranded (s : State α) : Prop where
  main : s.main = .sigwaitinfo
  registered : s.queue.registered = true
  msgs : s.queue.msgs ≠ []
  pending : s.pending = false
  received : s.received = []

theorem stranded_step {prio : α → ℕ} {s s' : State α} (h : Stranded s) {a : Act α}
    (hs : step prio s a = some s') : Stranded s' := by
  cases a with
  | main => simp [step, NotifySigwaitinfo.main, h.main, h.pending] at hs
  | arrive m =>
    cases hs
    have hne : s.queue.msgs.isEmpty = false := by simpa using h.msgs
    have hinsert : (s.queue.send prio m).msgs.length = s.queue.msgs.length + 1 :=
      List.orderedInsert_length _ _ _
    exact {
      main := h.main
      registered := by simp [Mqueue.send, h.registered, hne]
      msgs := fun hnil => by
        rw [show (s.queue.send prio m).msgs = [] from hnil] at hinsert
        cases hinsert
      pending := by simp [h.pending, Mqueue.notifies, hne]
      received := h.received }

theorem stranded_exec {prio : α → ℕ} {s s' : State α} (h : Stranded s) (as : List (Act α))
    (hs : (machine prio).exec s as = some s') : Stranded s' := by
  induction as generalizing s with
  | nil => exact Option.some.inj hs ▸ h
  | cons a as ih =>
    simp only [Machine.execUnder, if_true] at hs
    obtain ⟨t, ht, hrest⟩ := Option.bind_eq_some_iff.mp hs
    exact ih (stranded_step h ht) hrest

theorem received_of_first {prio : α → ℕ} {s : State α} (hs : (machine prio).Reachable s) :
    s.main = .first → s.received = [] := by
  refine (hs.invariant (I := fun s => Safe s ∧ (s.main = .first → s.received = [])) ?_ ?_).2
  · rintro _ ⟨msgs, rfl⟩
    exact ⟨safe_initial msgs, fun _ => rfl⟩
  · rintro s a s' ⟨hsafe, h⟩ ha
    refine ⟨safe_step hsafe a ha, ?_⟩
    cases a with
    | arrive m =>
      cases ha
      exact h
    | main =>
      rcases hsafe.main_cases ha with ⟨-, rfl⟩ | ⟨-, -, rfl⟩ | ⟨-, rfl⟩ | ⟨hm, _, _, -, rfl⟩ |
        ⟨-, -, rfl⟩
      · simp
      · simp
      · simp
      · simp [hm]
      · simp

/-- Whether the program reads anything is decided by its first `mq_notify()`. If the queue is empty
then, no message is ever stranded: whenever it waits, the queue is empty and the registration in
force, or its signal is pending. Otherwise it waits for ever, and reads none of the messages that
are there or arrive later. -/
theorem mq_notify_sigwaitinfo_first {α : Type*} (prio : α → ℕ) :
    (∀ s, (machine prio).Reachable s →
      s.main ≠ .errExit ∧ (s.received ++ s.queue.msgs).Perm s.arrived) ∧
    (∀ s, (machine prio).ReachableUnder FirstEmpty s → s.main = .sigwaitinfo →
      s.queue.msgs = [] ∧ s.queue.registered = true ∨ s.pending = true) ∧
    ∀ s, (machine prio).Reachable s → s.main = .first → s.queue.msgs ≠ [] →
      ∀ as s', (machine prio).exec s (.main :: as) = some s' →
        s'.main = .sigwaitinfo ∧ s'.received = [] ∧ s'.pending = false := by
  refine ⟨fun s hs => ⟨(safe_of_reachable hs).alive, (safe_of_reachable hs).perm⟩,
    fun s hs hm => ?_, fun s hs hm hmsgs as s' hexec => ?_⟩
  · obtain ⟨hsafe, hdrained⟩ := drained_of_reachable hs
    have htoken := hsafe.token
    cases hr : s.queue.registered with
    | true => exact .inl ⟨(hdrained hr).resolve_left (by simp [hm]), rfl⟩
    | false =>
      refine .inr ?_
      by_contra hp
      simp [tokens, hr, hm, hp] at htoken
  · have hsafe := safe_of_reachable hs
    have hreceived := received_of_first hs hm
    have hfirst : step prio s .main =
        some { s with main := .sigwaitinfo, queue := { s.queue with registered := true } } := by
      simp only [step, main, hm, hsafe.notify (.inl hm)]
    rw [Machine.exec_cons hfirst] at hexec
    have hstranded : Stranded s' := by
      refine stranded_exec (s := { s with
        main := .sigwaitinfo, queue := { s.queue with registered := true } }) ?_ as hexec
      exact ⟨rfl, rfl, hmsgs, (hsafe.free (.inl hm)).2, hreceived⟩
    exact ⟨hstranded.main, hstranded.received, hstranded.pending⟩

end Tlpi.Pmsg.NotifySigwaitinfo
