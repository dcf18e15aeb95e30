import Mathlib.Data.List.Sort
import Mathlib.Tactic

/-! A POSIX message queue that is read without blocking, with the registration for notification: it
is consumed, and a notification generated, by the message that arrives on an empty queue. -/

namespace Tlpi.Lib

structure Mqueue (α : Type*) where
  /-- The messages, in the order in which `mq_receive()` gets them. -/
  msgs : List α
  registered : Bool

namespace Mqueue

variable {α : Type*} (q : Mqueue α)

/-- Whether a message that arrives now generates a notification. -/
def notifies : Bool := q.registered && q.msgs.isEmpty

/-- A message arrives. It is placed behind those of its own or a higher priority. -/
def send (prio : α → ℕ) (m : α) : Mqueue α where
  msgs := q.msgs.orderedInsert (fun a b => prio b < prio a) m
  registered := q.registered && !q.msgs.isEmpty

/-- `mq_receive()`, with `none` for EAGAIN. -/
def receive : Option (α × Mqueue α) :=
  match q.msgs with
  | [] => none
  | m :: l => some (m, { q with msgs := l })

/-- `mq_notify()`, with `none` for EBUSY. -/
def notify : Option (Mqueue α) := if q.registered then none else some { q with registered := true }

variable {q} {q' : Mqueue α}

theorem perm_send (prio : α → ℕ) (m : α) (received : List α) :
    (received ++ (q.send prio m).msgs).Perm (received ++ q.msgs ++ [m]) := by
  rw [List.append_assoc]
  have hinsert : (q.send prio m).msgs.Perm (m :: q.msgs) := List.perm_orderedInsert _ m q.msgs
  exact (hinsert.trans (List.perm_append_singleton m q.msgs).symm).append_left received

/-- The registration and the notifications that it has generated are one. -/
theorem registered_send (prio : α → ℕ) (m : α) :
    (q.send prio m).registered.toNat + q.notifies.toNat = q.registered.toNat := by
  unfold send notifies
  cases q.registered <;> cases q.msgs.isEmpty <;> rfl

theorem msgs_of_registered_send {prio : α → ℕ} {m : α}
    (h : (q.send prio m).registered = true) : q.registered = true ∧ q.msgs ≠ [] := by
  simpa [send] using h

theorem receive_eq_none : q.receive = none ↔ q.msgs = [] := by
  unfold receive
  split <;> simp [*]

theorem receive_eq_some {m : α} (h : q.receive = some (m, q')) :
    q.msgs = m :: q'.msgs ∧ q'.registered = q.registered := by
  unfold receive at h
  split at h
  · cases h
  · next hl =>
    cases h
    exact ⟨hl, rfl⟩

end Mqueue

end Tlpi.Lib
