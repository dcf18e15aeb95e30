import Tlpi.Lib.Machine
import Tlpi.Lib.Mqueue

/-! The loop of `pmsg/mq_notify_via_signal.c`. The signal is delivered between any two steps of
`main()`, and messages arrive at any time. -/

namespace Tlpi.Pmsg.NotifyViaSignal
open Lib

inductive Main
  | test
  /-- `gotSig = 0` -/
  | clear
  | register
  | receive
  | sleep
  /-- `mq_notify()` has failed. -/
  | errExit
  deriving DecidableEq

structure State (α : Type*) where
  queue : Mqueue α
  /-- NOTIFY_SIG is pending. -/
  pending : Bool
  gotSig : Bool
  main : Main
  arrived : List α
  received : List α

inductive Act (α : Type*)
  | main
  /-- `handler()` runs. -/
  | deliver
  | arrive (m : α)

variable {α : Type*}

/-- The entry of the loop, with the messages that were queued before. -/
def initial (msgs : List α) : State α where
  queue := ⟨msgs, false⟩
  pending := false
  gotSig := true
  main := .test
  arrived := msgs
  received := []

def main (s : State α) : Option (State α) :=
  match s.main with
  | .test => some { s with main := if s.gotSig then .clear else .sleep }
  | .clear => some { s with main := .register, gotSig := false }
  | .register =>
    match s.queue.notify with
    | some q => some { s with main := .receive, queue := q }
    | none => some { s with main := .errExit }
  | .receive =>
    match s.queue.receive with
    | some (m, q) => some { s with queue := q, received := s.received ++ [m] }
    | none => some { s with main := .sleep }
  | .sleep => some { s with main := .test }
  | .errExit => none

def step (prio : α → ℕ) (s : State α) : Act α → Option (State α)
  | .main => main s
  | .deliver => if s.pending then some { s with pending := false, gotSig := true } else none
  | .arrive m =>
    some { s with
      queue := s.queue.send prio m
      pending := s.pending || s.queue.notifies
      arrived := s.arrived ++ [m] }

def machine (prio : α → ℕ) : Machine (State α) (Act α) where
  init s := ∃ msgs, s = initial msgs
  step := step prio

/-! ## The one token

A registration in force, the signal it has generated, the flag that the handler has set and the
renewal that `main()` is about to make exclude each other, and there is always one of them. -/

def tokens (s : State α) : ℕ :=
  s.queue.registered.toNat + s.pending.toNat + s.gotSig.toNat + (decide (s.main = .register)).toNat

structure Inv (s : State α) : Prop where
  token : tokens s = 1
  clear : s.main = .clear → s.gotSig = true
  drained : s.queue.registered = true → s.main = .receive ∨ s.queue.msgs = []
  alive : s.main ≠ .errExit
  perm : (s.received ++ s.queue.msgs).Perm s.arrived

theorem inv_initial (msgs : List α) : Inv (initial msgs) where
  token := rfl
  clear h := nomatch h
  drained h := nomatch h
  alive h := nomatch h
  perm := .refl msgs

theorem Inv.empty {s : State α} (h : Inv s) (hm : s.main ≠ .receive)
    (hr : s.queue.registered = true) : s.queue.msgs = [] := (h.drained hr).resolve_left hm

/-- When `main()` renews the registration, the old one is consumed and its signal has come. -/
theorem Inv.free {s : State α} (h : Inv s) (hm : s.main = .register) :
    s.queue.registered = false ∧ s.pending = false ∧ s.gotSig = false := by
  have htoken := h.token
  simp only [tokens, hm, decide_true, Bool.toNat_true, add_eq_right] at htoken
  revert htoken
  cases s.queue.registered <;> cases s.pending <;> cases s.gotSig <;> simp

theorem inv_register {s : State α} (h : Inv s) (hm : s.main = .register) :
    Inv { s with main := .receive, queue := { s.queue with registered := true } } := by
  obtain ⟨-, hpending, hgot⟩ := h.free hm
  exact {
    token := by simp [tokens, hpending, hgot]
    clear := by simp
    drained := fun _ => .inl rfl
    alive := by simp
    perm := h.perm }

theorem inv_received {s : State α} (h : Inv s) (hm : s.main = .receive) {m : α} {q : Mqueue α}
    (hq : s.queue.receive = some (m, q)) :
    Inv { s with main := .receive, queue := q, received := s.received ++ [m] } := by
  obtain ⟨hmsgs, hreg⟩ := Mqueue.receive_eq_some hq
  exact {
    token := by simpa [tokens, hreg, hm] using h.token
    clear := by simp
    drained := fun _ => .inl rfl
    alive := by simp
    perm := by simpa [hmsgs] using h.perm }

/-- Steps of `main()` that leave all but the flag as it is. -/
theorem inv_move {s : State α} (h : Inv s) {pc : Main} {gotSig : Bool}
    (htoken : gotSig.toNat + (decide (pc = .register)).toNat =
      s.gotSig.toNat + (decide (s.main = .register)).toNat)
    (hclear : pc = .clear → gotSig = true)
    (hempty : s.queue.registered = true → s.queue.msgs = []) (halive : pc ≠ .errExit) :
    Inv { s with main := pc, gotSig := gotSig } where
  token := by
    have := h.token
    simp only [tokens] at this ⊢
    omega
  clear := hclear
  drained hr := .inr (hempty hr)
  alive := halive
  perm := h.perm

theorem inv_main {s s' : State α} (h : Inv s) (hs : main s = some s') : Inv s' := by
  cases hm : s.main with
  | test =>
    simp only [main, hm, Option.some.injEq] at hs
    subst hs
    split_ifs with hgot
    · exact inv_move h (by simp [hm]) (fun _ => hgot) (h.empty (by simp [hm])) (by simp)
    · exact inv_move h (by simp [hm]) (by simp) (h.empty (by simp [hm])) (by simp)
  | clear =>
    simp only [main, hm, Option.some.injEq] at hs
    subst hs
    exact inv_move h (by simp [hm, h.clear hm]) (by simp) (h.empty (by simp [hm])) (by simp)
  | register =>
    have hnotify : s.queue.notify = some { s.queue with registered := true } := by
      rw [Mqueue.notify, if_neg (by simp [(h.free hm).1])]
    simp only [main, hm, hnotify, Option.some.injEq] at hs
    exact hs ▸ inv_register h hm
  | receive =>
    rw [main, hm] at hs
    cases hq : s.queue.receive with
    | none =>
      simp only [hq, Option.some.injEq] at hs
      subst hs
      exact inv_move h (by simp [hm]) (by simp) (fun _ => Mqueue.receive_eq_none.mp hq) (by simp)
    | some mq =>
      simp only [hq, Option.some.injEq] at hs
      exact hs ▸ inv_received h hm hq
  | sleep =>
    simp only [main, hm, Option.some.injEq] at hs
    subst hs
    exact inv_move h (by simp [hm]) (by simp) (h.empty (by simp [hm])) (by simp)
  | errExit => exact absurd hm h.alive

/-- The message that consumes the registration makes the signal pending. -/
theorem inv_arrive {s : State α} (h : Inv s) (prio : α → ℕ) (m : α) :
    Inv { s with
      queue := s.queue.send prio m
      pending := s.pending || s.queue.notifies
      arrived := s.arrived ++ [m] } where
  token := by
    have htoken := h.token
    have hreg := s.queue.registered_send prio m
    simp only [tokens] at htoken ⊢
    cases hn : s.queue.notifies with
    | false =>
      rw [hn, Bool.toNat_false, add_zero] at hreg
      rwa [Bool.or_false, hreg]
    | true =>
      -- the registration was the token
      rw [hn, Bool.toNat_true] at hreg
      have hpending : s.pending.toNat = 0 := by omega
      rw [Bool.or_true, Bool.toNat_true]
      omega
  clear := h.clear
  drained hr := by
    obtain ⟨hreg, hne⟩ := Mqueue.msgs_of_registered_send hr
    exact .inl ((h.drained hreg).resolve_right hne)
  alive := h.alive
  perm := (Mqueue.perm_send prio m s.received).trans (h.perm.append_right [m])

theorem inv_step {prio : α → ℕ} {s s' : State α} (h : Inv s) (a : Act α)
    (hs : step prio s a = some s') : Inv s' := by
  cases a with
  | main => exact inv_main h hs
  | deliver =>
    obtain ⟨hpending, hs⟩ := Option.ite_none_right_eq_some.mp hs
    cases hs
    have htoken := h.token
    have hgot : s.gotSig = false := by
      cases hg : s.gotSig
      · rfl
      · simp [tokens, hpending, hg] at htoken
        omega
    exact {
      token := by simpa [tokens, hpending, hgot] using htoken
      clear := fun _ => rfl
      drained := h.drained
      alive := h.alive
      perm := h.perm }
  | arrive m =>
    cases hs
    exact inv_arrive h prio m

theorem inv_of_reachable {prio : α → ℕ} {s : State α} (hs : (machine prio).Reachable s) :
    Inv s := by
  refine hs.invariant (I := Inv) ?_ fun _ a _ hi ha => inv_step hi a ha
  rintro _ ⟨msgs, rfl⟩
  exact inv_initial msgs

/-! ## The iteration after the delivery -/

theorem exec_receive (prio : α → ℕ) {s : State α} (hm : s.main = .receive) :
    (machine prio).exec s (List.replicate (s.queue.msgs.length + 1) .main) =
      some { s with
        main := .sleep
        queue := { s.queue with msgs := [] }
        received := s.received ++ s.queue.msgs } := by
  obtain ⟨⟨msgs, registered⟩, pending, gotSig, pc, arrived, received⟩ := s
  obtain rfl : pc = .receive := hm
  induction msgs generalizing received with
  | nil => exact (Machine.exec_cons rfl []).trans (by simp [Machine.execUnder])
  | cons m msgs ih =>
    rw [List.length_cons, List.replicate_succ, Machine.exec_cons rfl, ih (received ++ [m])]
    simp

/-- The iteration in which `main()` finds `gotSig` set. -/
theorem exec_iteration {prio : α → ℕ} {s : State α} (h : Inv s) (hm : s.main = .sleep)
    (hgot : s.gotSig = true) :
    (machine prio).exec s (List.replicate (s.queue.msgs.length + 5) .main) =
      some { s with
        main := .sleep
        gotSig := false
        queue := ⟨[], true⟩
        received := s.received ++ s.queue.msgs } := by
  have hfree : s.queue.registered = false := by
    have htoken := h.token
    simp only [tokens, hgot, hm, Bool.toNat_true] at htoken
    exact Bool.toNat_eq_zero.mp (by omega)
  have htest : main s = some { s with main := .test } := by rw [main, hm]
  have hclear : main { s with main := .test } = some { s with main := .clear } := by
    simp [main, hgot]
  have hregister : main { s with main := .register, gotSig := false } =
      some { s with
        main := .receive
        gotSig := false
        queue := { s.queue with registered := true } } := by
    simp [main, Mqueue.notify, hfree]
  rw [List.replicate_succ, Machine.exec_cons htest, List.replicate_succ, Machine.exec_cons hclear,
    List.replicate_succ, Machine.exec_cons rfl, List.replicate_succ, Machine.exec_cons hregister]
  exact exec_receive prio rfl

/-- No message is stranded: while `main()` sleeps, the next message or the signal wakes it. -/
theorem mq_notify_via_signal_drains {prio : α → ℕ} {s : State α}
    (hs : (machine prio).Reachable s) :
    s.main ≠ .errExit ∧
    (s.received ++ s.queue.msgs).Perm s.arrived ∧
    (s.main = .sleep → s.queue.msgs = [] ∧ s.queue.registered = true ∨ s.gotSig = true ∨
      s.pending = true) ∧
    (s.pending = true → ∃ s', step prio s .deliver = some s' ∧ s'.main = s.main ∧
      s'.gotSig = true ∧ s'.queue = s.queue) ∧
    (∀ s', s.main = .receive → step prio s .main = some s' → s'.main = .sleep →
      s'.queue.msgs = []) ∧
    (s.main = .sleep → s.gotSig = true →
      ∃ s', (machine prio).exec s (List.replicate (s.queue.msgs.length + 5) .main) = some s' ∧
        s'.main = .sleep ∧ s'.queue.msgs = [] ∧ s'.received.Perm s'.arrived) := by
  have h := inv_of_reachable hs
  refine ⟨h.alive, h.perm, fun hm => ?_, fun hp => ?_,
    fun s' hm hs' hsleep => ?_, fun hm hgot => ?_⟩
  · have htoken := h.token
    cases hr : s.queue.registered with
    | true => exact .inl ⟨h.empty (by simp [hm]) hr, rfl⟩
    | false =>
      right
      by_contra hnone
      simp only [not_or, Bool.not_eq_true] at hnone
      simp [tokens, hr, hm, hnone.1, hnone.2] at htoken
  · exact ⟨_, if_pos hp, rfl, rfl, rfl⟩
  · simp only [step, main, hm] at hs'
    cases hq : s.queue.receive with
    | none =>
      simp only [hq, Option.some.injEq] at hs'
      exact hs' ▸ Mqueue.receive_eq_none.mp hq
    | some mq =>
      simp only [hq, Option.some.injEq] at hs'
      simp [← hs'] at hsleep
  · exact ⟨_, exec_iteration h hm hgot, rfl, rfl, h.perm⟩

/-- One message is queued at the start, and another arrives while `main()` sleeps. -/
theorem mq_notify_via_signal_drains_run : ∃ s : State ℕ, (machine id).Reachable s ∧
    s.queue.msgs = [9] ∧ s.main = .sleep ∧ s.gotSig = true ∧
    ∃ s', (machine id).exec s (List.replicate (s.queue.msgs.length + 5) .main) = some s' ∧
      s'.main = .sleep ∧ s'.queue.msgs = [] ∧ s'.received.Perm s'.arrived := by
  obtain ⟨s, hs, hp⟩ := Machine.exists_reachable_of_exec (M := machine (id : ℕ → ℕ)) ⟨[7], rfl⟩
    [.main, .main, .main, .main, .main, .arrive 9, .deliver]
    (fun s => s.queue.msgs = [9] ∧ s.main = .sleep ∧ s.gotSig = true) (by decide)
  obtain ⟨hmsgs, hm, hgot⟩ := of_decide_eq_true hp
  exact ⟨s, hs, hmsgs, hm, hgot, (mq_notify_via_signal_drains hs).2.2.2.2.2 hm hgot⟩

end Tlpi.Pmsg.NotifyViaSignal
