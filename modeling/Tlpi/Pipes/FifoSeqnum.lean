import Tlpi.Lib.CInt
import Tlpi.Lib.CString

/-! The server of `pipes/fifo_seqnum_server.c`. It takes the length of a request as it comes, so
that what holds of the numbers it allocates depends on the requests. -/

namespace Tlpi.Pipes.FifoSeqnum
open Lib

structure Request where
  pid : BitVec 32
  seqLen : BitVec 32

/-- What the server can do with the FIFO of a client. -/
inductive ClientFifo
  | openFails
  | writeFails
  | written
  deriving DecidableEq

inductive Event
  /-- A partial read, or an error. -/
  | discarded
  | request (req : Request) (fifo : ClientFifo)

/-- A response that is written to a client, with the length of the request. -/
structure Response where
  clientFifo : List Char
  seqNum : BitVec 32
  seqLen : BitVec 32
  deriving DecidableEq

structure State where
  seqNum : BitVec 32
  sent : List Response

def CLIENT_FIFO_NAME_LEN : ℕ := 39

def clientFifo (pid : BitVec 32) : List Char :=
  snprintf CLIENT_FIFO_NAME_LEN ("/tmp/seqnum_cl.".toList ++ decimal pid.toInt)

/-- One turn of the loop. -/
def handle (s : State) : Event → State
  | .discarded => s
  | .request req fifo =>
    match fifo with
    | .openFails => s
    | .writeFails => { s with seqNum := s.seqNum + req.seqLen }
    | .written =>
      { seqNum := s.seqNum + req.seqLen
        sent := s.sent ++ [⟨clientFifo req.pid, s.seqNum, req.seqLen⟩] }

def run (events : List Event) : State := events.foldl handle ⟨0, []⟩

/-! ## What the server is for -/

/-- `x` is one of the numbers that the response allocates. -/
def Response.Allocates (r : Response) (x : ℤ) : Prop :=
  r.seqNum.toInt ≤ x ∧ x < r.seqNum.toInt + r.seqLen.toInt

/-- No number is allocated twice. -/
def Unique (sent : List Response) : Prop :=
  (sent.filter fun r => 0 < r.seqLen.toInt).Pairwise fun a b => ∀ x, a.Allocates x → ¬ b.Allocates x

def NeverDecreases (events : List Event) : Prop :=
  ∀ past e, past ++ [e] <+: events → (run past).seqNum.toInt ≤ (run (past ++ [e])).seqNum.toInt

/-! ## The lengths that the server adds -/

/-- The length of a request that is added to `seqNum`. -/
def Event.added : Event → Option ℤ
  | .discarded | .request _ .openFails => none
  | .request req _ => some req.seqLen.toInt

def added (events : List Event) : List ℤ := events.filterMap Event.added

/-- The lengths of the positive requests that are answered. -/
def answered (events : List Event) : List ℤ :=
  ((run events).sent.map fun r => r.seqLen.toInt).filter (0 < ·)

theorem run_concat (events : List Event) (e : Event) :
    run (events ++ [e]) = handle (run events) e := List.foldl_concat _ _ _ _

theorem added_concat (events : List Event) (e : Event) :
    added (events ++ [e]) = added events ++ e.added.toList := by
  cases h : e.added <;> simp [added, h]

theorem seqNum_handle (s : State) (e : Event) :
    (handle s e).seqNum.toInt = (s.seqNum.toInt + e.added.getD 0).bmod (2 ^ 32) := by
  have hsame : s.seqNum.toInt = (s.seqNum.toInt + 0).bmod (2 ^ 32) := by
    rw [add_zero, BitVec.toInt_bmod_cancel]
  cases e with
  | discarded => exact hsame
  | request req fifo =>
    cases fifo with
    | openFails => exact hsame
    | writeFails => exact BitVec.toInt_add s.seqNum req.seqLen
    | written => exact BitVec.toInt_add s.seqNum req.seqLen

theorem added_bounds {e : Event} {l : ℤ} (h : e.added = some l) : INT_MIN ≤ l ∧ l ≤ INT_MAX := by
  have hbounds : ∀ v : BitVec 32, INT_MIN ≤ v.toInt ∧ v.toInt ≤ INT_MAX := fun v => by
    have hlow := v.le_toInt
    have hhigh := v.toInt_lt
    unfold INT_MIN INT_MAX
    omega
  cases e with
  | discarded => cases h
  | request req fifo =>
    cases fifo with
    | openFails => cases h
    | writeFails => exact Option.some.inj h ▸ hbounds req.seqLen
    | written => exact Option.some.inj h ▸ hbounds req.seqLen

/-- No length is negative, and they do not lead beyond INT_MAX. -/
def Good (events : List Event) : Prop :=
  (∀ l ∈ added events, 0 ≤ l) ∧ (added events).sum ≤ INT_MAX

theorem good_concat {events : List Event} {e : Event} :
    Good (events ++ [e]) ↔ Good events ∧ ∀ l, e.added = some l →
      0 ≤ l ∧ (added events).sum + l ≤ INT_MAX := by
  unfold Good
  rw [added_concat]
  cases he : e.added with
  | none => simp
  | some l =>
    simp only [Option.toList_some, List.mem_append, List.mem_singleton, List.sum_append,
      List.sum_singleton, Option.some.injEq]
    constructor
    · rintro ⟨hpos, hsum⟩
      have hl := hpos l (.inr rfl)
      exact ⟨⟨fun k hk => hpos k (.inl hk), by omega⟩, fun k hk => hk ▸ ⟨hl, hsum⟩⟩
    · rintro ⟨⟨hpos, -⟩, hlast⟩
      obtain ⟨hl, hsum⟩ := hlast l rfl
      exact ⟨fun k hk => hk.elim (hpos k) fun hk => hk ▸ hl, hsum⟩

/-- The counter is the sum of the lengths. -/
theorem seqNum_eq {events : List Event} (h : Good events) :
    (run events).seqNum.toInt = (added events).sum := by
  induction events using List.reverseRecOn with
  | nil => rfl
  | append_singleton events e ih =>
    obtain ⟨hgood, hlast⟩ := good_concat.mp h
    have hnonneg : 0 ≤ (added events).sum := List.sum_nonneg hgood.1
    rw [run_concat, seqNum_handle, ih hgood, added_concat]
    cases he : e.added with
    | none =>
      simp only [Option.getD_none, Option.toList_none, add_zero, List.append_nil]
      exact bmod_of_int (by unfold INT_MIN; omega) hgood.2
    | some l =>
      obtain ⟨hl, hsum⟩ := hlast l he
      simp only [Option.getD_some, Option.toList_some, List.sum_append, List.sum_singleton]
      exact bmod_of_int (by unfold INT_MIN; omega) hsum

theorem neverDecreases_concat {events : List Event} {e : Event} :
    NeverDecreases (events ++ [e]) ↔ NeverDecreases events ∧
      (run events).seqNum.toInt ≤ (run (events ++ [e])).seqNum.toInt := by
  constructor
  · intro h
    exact ⟨fun past a hpast => h past a (hpast.trans (List.prefix_append _ _)),
      h events e List.prefix_rfl⟩
  · rintro ⟨h, hlast⟩ past a hpast
    rcases List.prefix_concat_iff.mp hpast with heq | hpast
    · obtain ⟨rfl, ha⟩ := List.append_inj' heq rfl
      rw [List.singleton_inj] at ha
      exact ha ▸ hlast
    · exact h past a hpast

/-- Past INT_MAX the counter wraps around to a smaller number. -/
theorem le_bmod_iff {z l : ℤ} (hz : 0 ≤ z) (hzmax : z ≤ INT_MAX) (hmin : INT_MIN ≤ l)
    (hmax : l ≤ INT_MAX) : z ≤ (z + l).bmod (2 ^ 32) ↔ 0 ≤ l ∧ z + l ≤ INT_MAX := by
  by_cases hover : z + l ≤ INT_MAX
  · rw [bmod_of_int (by omega) hover]
    omega
  · unfold INT_MAX INT_MIN at *
    rw [Int.bmod_def]
    split_ifs <;> omega

/-- An event does not decrease the counter only if its length is allowed. -/
theorem neverDecreases_iff (events : List Event) : NeverDecreases events ↔ Good events := by
  induction events using List.reverseRecOn with
  | nil =>
    refine iff_of_true (fun past e h => ?_) ⟨by simp [added], by decide⟩
    simp at h
  | append_singleton events e ih =>
    rw [neverDecreases_concat, good_concat, ih]
    refine and_congr_right fun hgood => ?_
    have hnonneg : 0 ≤ (added events).sum := List.sum_nonneg hgood.1
    have hmax := hgood.2
    rw [run_concat, seqNum_handle, seqNum_eq hgood]
    cases he : e.added with
    | none =>
      refine iff_of_true ?_ nofun
      rw [Option.getD_none, add_zero, bmod_of_int (by unfold INT_MIN; omega) hmax]
    | some l =>
      simp only [Option.getD_some, Option.some.injEq, forall_eq']
      exact le_bmod_iff hnonneg hmax (added_bounds he).1 (added_bounds he).2

/-- The responses in their order: each begins where those before it have ended. -/
theorem sent_ordered {events : List Event} (h : Good events) :
    ((run events).sent.Pairwise fun a b =>
      a.seqNum.toInt + a.seqLen.toInt ≤ b.seqNum.toInt) ∧
    ∀ r ∈ (run events).sent, r.seqNum.toInt + r.seqLen.toInt ≤ (run events).seqNum.toInt := by
  induction events using List.reverseRecOn with
  | nil => exact ⟨.nil, by simp [run]⟩
  | append_singleton events e ih =>
    obtain ⟨hpair, hbelow⟩ := ih (good_concat.mp h).1
    have hle : (run events).seqNum.toInt ≤ (handle (run events) e).seqNum.toInt := by
      have hnever := (neverDecreases_concat.mp ((neverDecreases_iff _).mpr h)).2
      rwa [run_concat] at hnever
    have hkept : ∀ r ∈ (run events).sent,
        r.seqNum.toInt + r.seqLen.toInt ≤ (handle (run events) e).seqNum.toInt :=
      fun r hr => (hbelow r hr).trans hle
    rw [run_concat]
    cases e with
    | discarded => exact ⟨hpair, hkept⟩
    | request req fifo =>
      cases fifo with
      | openFails => exact ⟨hpair, hkept⟩
      | writeFails => exact ⟨hpair, hkept⟩
      | written =>
        refine ⟨List.pairwise_append.mpr ⟨hpair, List.pairwise_singleton _ _, fun a ha b hb => ?_⟩,
          fun r hr => ?_⟩
        · rw [List.mem_singleton.mp hb]
          exact hbelow a ha
        · rcases List.mem_append.mp hr with hr | hr
          · exact hkept r hr
          · have hnew := seqNum_eq h
            rw [run_concat, added_concat] at hnew
            rw [List.mem_singleton.mp hr, hnew, seqNum_eq (good_concat.mp h).1]
            simp [Event.added]

theorem unique_of_good {events : List Event} (h : Good events) : Unique (run events).sent := by
  have hordered := (sent_ordered h).1.filter fun r => decide (0 < r.seqLen.toInt)
  exact hordered.imp fun hab x ha hb => absurd (ha.2.trans_le hab) (not_lt.mpr hb.1)

/-- The server allocates unique numbers exactly for the histories in which no negative length is
added, and the lengths that are added do not lead beyond INT_MAX. -/
theorem fifo_seqnum_unique_iff (events : List Event) :
    Unique (run events).sent ∧ NeverDecreases events ↔
      (∀ l ∈ added events, 0 ≤ l) ∧ (added events).sum ≤ INT_MAX := by
  constructor
  · rintro ⟨-, hnever⟩
    exact (neverDecreases_iff events).mp hnever
  · intro hgood
    exact ⟨unique_of_good hgood, (neverDecreases_iff events).mpr hgood⟩

/-- Three clients; the second asks for -5 numbers, and the third gets those of the first. -/
theorem fifo_seqnum_reuses :
    let events := [.request ⟨101, 5⟩ .written, .request ⟨102, -5⟩ .written,
      .request ⟨103, 5⟩ .written]
    (answered events).sum ≤ INT_MAX ∧ (run events).sent.map Response.seqNum = [0, 5, 0] ∧
      ¬ Unique (run events).sent ∧ ¬ NeverDecreases events := by
  refine ⟨by decide, by decide, fun hunique => ?_, fun hnever => ?_⟩
  · have hfirst : ∀ x, Response.Allocates ⟨clientFifo 101, 0, 5⟩ x →
        ¬ Response.Allocates ⟨clientFifo 103, 0, 5⟩ x :=
      List.rel_of_pairwise_cons hunique (List.mem_singleton.mpr rfl)
    exact hfirst 0 ⟨by decide, by decide⟩ ⟨by decide, by decide⟩
  · have hgood := (neverDecreases_iff _).mp hnever
    exact absurd (hgood.1 (-5) (by decide)) (by decide)

end Tlpi.Pipes.FifoSeqnum
