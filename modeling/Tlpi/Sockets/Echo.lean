import Tlpi.Lib.CopyLoop
import Tlpi.Lib.Machine
import Tlpi.Lib.Progress
import Mathlib.Data.List.TakeWhile
import Mathlib.Tactic

/-! The echo client of `sockets/is_echo_cl.c` and one connection of the server of
`sockets/is_echo_sv.c`. Two processes of the client share the socket, one for each direction; the
server has its child in `handleRequest()` and the parent that still has a copy of `cfd`. The
connection itself does not fail, and holds a bounded number of bytes in each direction. -/

namespace Tlpi.Sockets.Echo
open Lib Lib.CopyLoop

/-- `BUF_SIZE` of `is_echo_cl.c`. -/
def clientBufSize : ℕ := 100

/-- `BUF_SIZE` of `is_echo_sv.c`. -/
def serverBufSize : ℕ := 4096

structure State where
  /-- What is still to be read from the client's standard input. -/
  stdin : List UInt8
  /-- A read of standard input has failed. -/
  readFailed : Bool
  parent : Pc UInt8
  /-- The bytes on their way to the server. -/
  up : List UInt8
  server : Pc UInt8
  /-- The server's parent has not yet closed its copy of the connected socket. -/
  cfdOpen : Bool
  /-- The bytes on their way to the client. -/
  down : List UInt8
  child : Pc UInt8
  /-- All that the client's child has read from the socket. -/
  seen : List UInt8
  /-- What the client's child has printed. -/
  out : List UInt8
  deriving DecidableEq

inductive Act
  | readStdin (k : ℕ)
  | stdinEof
  | stdinError
  | send (k : ℕ)
  | shutdown
  | serverRead (k : ℕ)
  | serverSend (k : ℕ)
  | serverEof
  | serverExit
  | closeCfd
  | childRead (k : ℕ)
  | childEof
  | childExit

/-- Both ends at work, once the server has forked its child. -/
def start (input : List UInt8) : State where
  stdin := input
  readFailed := false
  parent := .read
  up := []
  server := .read
  cfdOpen := true
  down := []
  child := .read
  seen := []
  out := []

/-- `printf("%.*s", numRead, buf)` stops at a null byte. -/
def printed (buf : List UInt8) : List UInt8 := buf.takeWhile (· ≠ 0)

/-- The client's parent has shut down its direction of the connection. -/
def State.upClosed (s : State) : Prop := s.parent = .exited

/-- No process has the server's end of the connection open. -/
def State.downClosed (s : State) : Prop := s.server = .exited ∧ s.cfdOpen = false

instance (s : State) : Decidable s.upClosed := inferInstanceAs (Decidable (_ = _))
instance (s : State) : Decidable s.downClosed := inferInstanceAs (Decidable (_ ∧ _))

def step (capUp capDown : ℕ) (s : State) : Act → Option State
  | .readStdin k => (s.parent.fill clientBufSize k s.stdin).map fun r =>
      { s with parent := r.1, stdin := r.2 }
  | .stdinEof => if s.stdin = [] then s.parent.stop.map fun pc => { s with parent := pc } else none
  | .stdinError => s.parent.stop.map fun pc => { s with parent := pc, readFailed := true }
  | .send k => (s.parent.flush capUp k s.up).map fun r => { s with parent := r.1, up := r.2 }
  | .shutdown => s.parent.exit.map fun pc => { s with parent := pc }
  | .serverRead k => (s.server.fill serverBufSize k s.up).map fun r =>
      { s with server := r.1, up := r.2 }
  | .serverSend k => (s.server.flush capDown k s.down).map fun r =>
      { s with server := r.1, down := r.2 }
  | .serverEof =>
    if s.up = [] ∧ s.upClosed then s.server.stop.map fun pc => { s with server := pc } else none
  | .serverExit => s.server.exit.map fun pc => { s with server := pc }
  | .closeCfd => if s.cfdOpen then some { s with cfdOpen := false } else none
  | .childRead k =>
    -- the bytes are printed at once, so the loop is back at its read
    if s.child = .read then (takeBlock clientBufSize k s.down).map fun r =>
      { s with down := r.2, seen := s.seen ++ r.1, out := s.out ++ printed r.1 }
    else none
  | .childEof =>
    if s.down = [] ∧ s.downClosed then s.child.stop.map fun pc => { s with child := pc } else none
  | .childExit => s.child.exit.map fun pc => { s with child := pc }

def machine (input : List UInt8) (capUp capDown : ℕ) : Machine State Act where
  init s := s = start input
  step := step capUp capDown

/-- Every process of the connection has done its work. -/
def State.Ended (s : State) : Prop :=
  s.parent = .exited ∧ s.server = .exited ∧ s.cfdOpen = false ∧ s.child = .exited

/-- The bytes on their way from standard input to the client's child, first come first. -/
def State.underWay (s : State) : List UInt8 := s.down ++ s.server.held ++ s.up ++ s.parent.held

theorem printed_of_zero_notMem {buf : List UInt8} (h : 0 ∉ buf) : printed buf = buf :=
  List.takeWhile_eq_self_iff.mpr fun _ hb => decide_eq_true fun h0 => h (h0 ▸ hb)

theorem zero_notMem_printed (buf : List UInt8) : 0 ∉ printed buf := by
  intro h
  have hne := List.mem_takeWhile_imp (show 0 ∈ buf.takeWhile (· ≠ 0) from h)
  exact of_decide_eq_true hne rfl

structure Inv (input : List UInt8) (s : State) : Prop where
  flow : s.seen ++ s.underWay ++ s.stdin = input
  stdin_read : s.parent.left = true → s.readFailed = false → s.stdin = []
  up_read : s.server.left = true → s.upClosed ∧ s.up = []
  down_read : s.child.left = true → s.downClosed ∧ s.down = []
  child_held : s.child.held = []
  zero_notMem : 0 ∉ s.out
  out_eq : 0 ∉ s.seen → s.out = s.seen

theorem inv_start (input : List UInt8) : Inv input (start input) where
  flow := rfl
  stdin_read h := absurd h Bool.false_ne_true
  up_read h := absurd h Bool.false_ne_true
  down_read h := absurd h Bool.false_ne_true
  child_held := rfl
  zero_notMem := List.not_mem_nil
  out_eq _ := rfl

variable {input : List UInt8} {capUp capDown : ℕ} {s s' : State}

/-- The client's parent moves bytes from standard input towards the server. -/
theorem inv_parent (h : Inv input s) {pc : Pc UInt8} {stdin up : List UInt8} {failed : Bool}
    (hlive : s.parent ≠ .exited)
    (hflow : up ++ pc.held ++ stdin = s.up ++ s.parent.held ++ s.stdin)
    (hread : pc.left = true → failed = false → stdin = []) :
    Inv input { s with parent := pc, stdin := stdin, up := up, readFailed := failed } where
  flow := by
    rw [← h.flow]
    simpa [State.underWay] using hflow
  stdin_read := hread
  up_read hl := absurd (h.up_read hl).1 hlive
  down_read := h.down_read
  child_held := h.child_held
  zero_notMem := h.zero_notMem
  out_eq := h.out_eq

/-- The server's child moves bytes from one direction of the connection to the other. -/
theorem inv_server (h : Inv input s) {pc : Pc UInt8} {up down : List UInt8}
    (hlive : s.server ≠ .exited)
    (hflow : down ++ pc.held ++ up = s.down ++ s.server.held ++ s.up)
    (hread : pc.left = true → s.upClosed ∧ up = []) :
    Inv input { s with server := pc, up := up, down := down } where
  flow := by
    rw [← h.flow]
    simpa [State.underWay] using congrArg (· ++ s.parent.held ++ s.stdin) hflow
  stdin_read := h.stdin_read
  up_read := hread
  down_read hl := absurd (h.down_read hl).1.1 hlive
  child_held := h.child_held
  zero_notMem := h.zero_notMem
  out_eq := h.out_eq

theorem inv_childRead (h : Inv input s) {block down : List UInt8} (hread : s.child = .read)
    (hflow : block ++ down = s.down) :
    Inv input { s with down := down, seen := s.seen ++ block, out := s.out ++ printed block } where
  flow := by
    rw [← h.flow]
    simp [State.underWay, ← hflow]
  stdin_read := h.stdin_read
  up_read := h.up_read
  down_read hl := absurd (hread ▸ hl : Pc.left .read = true) Bool.false_ne_true
  child_held := h.child_held
  zero_notMem hmem := (List.mem_append.mp hmem).elim h.zero_notMem (zero_notMem_printed block)
  out_eq hnot := by
    simp only [List.mem_append, not_or] at hnot
    rw [h.out_eq hnot.1, printed_of_zero_notMem hnot.2]

theorem inv_step (h : Inv input s) {a : Act} (ha : step capUp capDown s a = some s') :
    Inv input s' := by
  cases a with
  | readStdin k =>
    obtain ⟨⟨pc, rest⟩, hr, rfl⟩ := Option.map_eq_some_iff.mp ha
    obtain ⟨hread, hleft, -, happ, -⟩ := Pc.fill_eq_some hr
    exact inv_parent h (by simp [hread]) (by simp [hread, ← happ]) (by simp [hleft])
  | stdinEof =>
    obtain ⟨hnil, ha⟩ := Option.ite_none_right_eq_some.mp ha
    obtain ⟨pc, hpc, rfl⟩ := Option.map_eq_some_iff.mp ha
    obtain ⟨hread, rfl⟩ := Pc.stop_eq_some hpc
    exact inv_parent h (by simp [hread]) (by simp [hread]) fun _ _ => hnil
  | stdinError =>
    obtain ⟨pc, hpc, rfl⟩ := Option.map_eq_some_iff.mp ha
    obtain ⟨hread, rfl⟩ := Pc.stop_eq_some hpc
    exact inv_parent h (by simp [hread]) (by simp [hread]) (by simp)
  | send k =>
    obtain ⟨⟨pc, up⟩, hr, rfl⟩ := Option.map_eq_some_iff.mp ha
    obtain ⟨hleft, hleft', -, -, happ, -⟩ := Pc.flush_eq_some hr
    exact inv_parent h (Pc.ne_exited_of_left hleft) (by rw [happ]) (by simp [hleft'])
  | shutdown =>
    obtain ⟨pc, hpc, rfl⟩ := Option.map_eq_some_iff.mp ha
    obtain ⟨hdone, rfl⟩ := Pc.exit_eq_some hpc
    exact inv_parent h (by simp [hdone]) (by simp [hdone]) fun _ =>
      h.stdin_read (by rw [hdone]; rfl)
  | serverRead k =>
    obtain ⟨⟨pc, up⟩, hr, rfl⟩ := Option.map_eq_some_iff.mp ha
    obtain ⟨hread, hleft, -, happ, -⟩ := Pc.fill_eq_some hr
    exact inv_server h (by simp [hread]) (by simp [hread, ← happ]) (by simp [hleft])
  | serverSend k =>
    obtain ⟨⟨pc, down⟩, hr, rfl⟩ := Option.map_eq_some_iff.mp ha
    obtain ⟨hleft, hleft', -, -, happ, -⟩ := Pc.flush_eq_some hr
    exact inv_server h (Pc.ne_exited_of_left hleft) (by rw [happ]) (by simp [hleft'])
  | serverEof =>
    obtain ⟨⟨hnil, hclosed⟩, ha⟩ := Option.ite_none_right_eq_some.mp ha
    obtain ⟨pc, hpc, rfl⟩ := Option.map_eq_some_iff.mp ha
    obtain ⟨hread, rfl⟩ := Pc.stop_eq_some hpc
    exact inv_server h (by simp [hread]) (by simp [hread]) fun _ => ⟨hclosed, hnil⟩
  | serverExit =>
    obtain ⟨pc, hpc, rfl⟩ := Option.map_eq_some_iff.mp ha
    obtain ⟨hdone, rfl⟩ := Pc.exit_eq_some hpc
    exact inv_server h (by simp [hdone]) (by simp [hdone]) fun _ => h.up_read (by rw [hdone]; rfl)
  | closeCfd =>
    obtain ⟨-, ha⟩ := Option.ite_none_right_eq_some.mp ha
    obtain rfl := Option.some.inj ha
    exact { h with down_read := fun hl => ⟨⟨(h.down_read hl).1.1, rfl⟩, (h.down_read hl).2⟩ }
  | childRead k =>
    obtain ⟨hread, ha⟩ := Option.ite_none_right_eq_some.mp ha
    obtain ⟨⟨block, down⟩, hr, rfl⟩ := Option.map_eq_some_iff.mp ha
    exact inv_childRead h hread (takeBlock_eq_some hr).1
  | childEof =>
    obtain ⟨⟨hnil, hclosed⟩, ha⟩ := Option.ite_none_right_eq_some.mp ha
    obtain ⟨pc, hpc, rfl⟩ := Option.map_eq_some_iff.mp ha
    obtain ⟨-, rfl⟩ := Pc.stop_eq_some hpc
    exact { h with down_read := fun _ => ⟨hclosed, hnil⟩, child_held := rfl }
  | childExit =>
    obtain ⟨pc, hpc, rfl⟩ := Option.map_eq_some_iff.mp ha
    obtain ⟨hdone, rfl⟩ := Pc.exit_eq_some hpc
    exact { h with down_read := fun _ => h.down_read (by rw [hdone]; rfl), child_held := rfl }

/-- A byte weighs as much as the stages that it still has to pass. -/
def weight (s : State) : ℕ :=
  5 * s.stdin.length + 4 * s.parent.held.length + 3 * s.up.length + 2 * s.server.held.length +
    s.down.length + s.parent.weight + s.server.weight + s.cfdOpen.toNat + s.child.weight

theorem weight_step {a : Act} (ha : step capUp capDown s a = some s') : weight s' < weight s := by
  cases a with
  | readStdin k =>
    obtain ⟨⟨pc, rest⟩, hr, rfl⟩ := Option.map_eq_some_iff.mp ha
    obtain ⟨hread, -, hw, happ, hpos⟩ := Pc.fill_eq_some hr
    simp only [weight, hread, hw, ← happ, List.length_append, Pc.held_read, List.length_nil,
      Pc.weight_read]
    omega
  | send k | serverSend k =>
    obtain ⟨⟨pc, up⟩, hr, rfl⟩ := Option.map_eq_some_iff.mp ha
    obtain ⟨-, -, hw, hw', happ, hlt⟩ := Pc.flush_eq_some hr
    have hlen := congrArg List.length happ
    simp only [List.length_append] at hlen
    simp only [weight, hw, hw']
    omega
  | serverRead k =>
    obtain ⟨⟨pc, up⟩, hr, rfl⟩ := Option.map_eq_some_iff.mp ha
    obtain ⟨hread, -, hw, happ, hpos⟩ := Pc.fill_eq_some hr
    simp only [weight, hread, hw, ← happ, List.length_append, Pc.held_read, List.length_nil,
      Pc.weight_read]
    omega
  | childRead k =>
    obtain ⟨-, ha⟩ := Option.ite_none_right_eq_some.mp ha
    obtain ⟨⟨block, down⟩, hr, rfl⟩ := Option.map_eq_some_iff.mp ha
    obtain ⟨happ, hne, -⟩ := takeBlock_eq_some hr
    have hpos := List.length_pos_of_ne_nil hne
    simp only [weight, ← happ, List.length_append]
    omega
  | closeCfd =>
    obtain ⟨hopen, ha⟩ := Option.ite_none_right_eq_some.mp ha
    obtain rfl := Option.some.inj ha
    simp [weight, hopen]
  | stdinEof | serverEof | childEof =>
    obtain ⟨-, ha⟩ := Option.ite_none_right_eq_some.mp ha
    obtain ⟨pc, hpc, rfl⟩ := Option.map_eq_some_iff.mp ha
    obtain ⟨hread, rfl⟩ := Pc.stop_eq_some hpc
    simp [weight, hread]
  | stdinError =>
    obtain ⟨pc, hpc, rfl⟩ := Option.map_eq_some_iff.mp ha
    obtain ⟨hread, rfl⟩ := Pc.stop_eq_some hpc
    simp [weight, hread]
  | shutdown | serverExit | childExit =>
    obtain ⟨pc, hpc, rfl⟩ := Option.map_eq_some_iff.mp ha
    obtain ⟨hdone, rfl⟩ := Pc.exit_eq_some hpc
    simp [weight, hdone]

theorem child_of_stuck (h : Inv input s) (hs : (machine input capUp capDown).Stuck s) :
    s.child = .exited ∨ s.child = .read ∧ s.down = [] ∧ ¬ s.downClosed := by
  cases hc : s.child with
  | read =>
    have hread : ∀ k, takeBlock clientBufSize k s.down = none := by
      intro k
      simpa [machine, step, hc] using hs (.childRead k)
    have hdown : s.down = [] := by
      cases hd : s.down with
      | nil => rfl
      | cons a l =>
        have hone := hread 1
        rw [hd, takeBlock_one (by decide)] at hone
        exact absurd hone (Option.some_ne_none _)
    refine Or.inr ⟨rfl, hdown, fun hclosed => ?_⟩
    have heof := hs .childEof
    simp [machine, step, hc, hdown, hclosed, Pc.stop] at heof
  | write a l => exact absurd h.child_held (by simp [hc])
  | done =>
    have hexit := hs .childExit
    simp [machine, step, hc, Pc.exit] at hexit
  | exited => exact Or.inl rfl

/-- A server that waits for room finds it, for the client's child reads on. -/
theorem server_of_stuck (hcap : 0 < capDown) (h : Inv input s)
    (hs : (machine input capUp capDown).Stuck s) :
    s.server = .exited ∨ s.server = .read ∧ s.up = [] := by
  have hblocked : s.server = .read ∧ s.up = [] ∨ (∃ a l, s.server = .write a l) ∧ s.down ≠ [] ∨
      s.server = .exited := by
    refine Pc.blocked serverBufSize capDown (by decide) hcap (fun k => ?_) (fun k => ?_) ?_
    · simpa [machine, step] using hs (.serverRead k)
    · simpa [machine, step] using hs (.serverSend k)
    · simpa [machine, step] using hs .serverExit
  rcases hblocked with hread | ⟨⟨a, l, hwrite⟩, hdown⟩ | hexited
  · exact Or.inr hread
  · rcases child_of_stuck h hs with hc | ⟨-, hnil, -⟩
    · have hclosed := (h.down_read (by rw [hc]; rfl)).1.1
      exact absurd (hwrite.symm.trans hclosed) (by simp)
    · exact absurd hnil hdown
  · exact Or.inl hexited

theorem parent_of_stuck (hup : 0 < capUp) (hdown : 0 < capDown) (h : Inv input s)
    (hs : (machine input capUp capDown).Stuck s) : s.parent = .exited := by
  have hblocked : s.parent = .read ∧ s.stdin = [] ∨ (∃ a l, s.parent = .write a l) ∧ s.up ≠ [] ∨
      s.parent = .exited := by
    refine Pc.blocked clientBufSize capUp (by decide) hup (fun k => ?_) (fun k => ?_) ?_
    · simpa [machine, step] using hs (.readStdin k)
    · simpa [machine, step] using hs (.send k)
    · simpa [machine, step] using hs .shutdown
  rcases hblocked with ⟨hread, -⟩ | ⟨-, hne⟩ | hexited
  · have herror := hs .stdinError
    simp [machine, step, hread, Pc.stop] at herror
  · rcases server_of_stuck hdown h hs with hexited | ⟨-, hnil⟩
    · exact absurd (h.up_read (by rw [hexited]; rfl)).2 hne
    · exact absurd hnil hne
  · exact hexited

theorem ended_of_stuck (hup : 0 < capUp) (hdown : 0 < capDown) (h : Inv input s)
    (hs : (machine input capUp capDown).Stuck s) : s.Ended := by
  have hparent := parent_of_stuck hup hdown h hs
  have hserver : s.server = .exited := by
    rcases server_of_stuck hdown h hs with hexited | ⟨hread, hnil⟩
    · exact hexited
    · have heof := hs .serverEof
      simp [machine, step, hread, hnil, State.upClosed, hparent, Pc.stop] at heof
  have hcfd : s.cfdOpen = false := by
    by_contra hopen
    have hclose := hs .closeCfd
    simp [machine, step, hopen] at hclose
  refine ⟨hparent, hserver, hcfd, ?_⟩
  rcases child_of_stuck h hs with hexited | ⟨-, -, hclosed⟩
  · exact hexited
  · exact absurd ⟨hserver, hcfd⟩ hclosed

/-- At the end the client's child has read all that its parent took from standard input. -/
theorem seen_of_ended (h : Inv input s) (he : s.Ended) :
    s.seen ++ s.stdin = input ∧ (s.readFailed = false → s.stdin = []) := by
  obtain ⟨hparent, hserver, -, hchild⟩ := he
  have hup := (h.up_read (by rw [hserver]; rfl)).2
  have hdown := (h.down_read (by rw [hchild]; rfl)).2
  refine ⟨?_, h.stdin_read (by rw [hparent]; rfl)⟩
  have hflow := h.flow
  simpa [State.underWay, hup, hdown, hparent, hserver] using hflow

theorem out_eq_seen_iff (h : Inv input s) : s.out = s.seen ↔ 0 ∉ s.seen :=
  ⟨fun heq => heq ▸ h.zero_notMem, h.out_eq⟩

theorem inv_of_reachable (hs : (machine input capUp capDown).Reachable s) : Inv input s := by
  refine hs.invariant (I := Inv input) ?_ fun _ _ _ h ha => inv_step h ha
  rintro _ rfl
  exact inv_start input

/-- The connection always runs to its end, whatever the sizes of the reads and the room in either
direction; what comes back is what was sent, exactly when there is no null byte in it. -/
theorem echo_completes (input : List UInt8) (capUp capDown : ℕ) (hup : 0 < capUp)
    (hdown : 0 < capDown) :
    (machine input capUp capDown).Completes State.Ended ∧
      ∀ s, (machine input capUp capDown).Reachable s →
        (0 ∉ input → s.out <+: input) ∧
        (s.Ended → ∃ sent, sent ++ s.stdin = input ∧ (s.readFailed = false → sent = input) ∧
          (s.out = sent ↔ 0 ∉ sent)) := by
  refine ⟨Machine.completes_of_weight (Inv input) weight (fun _ h => h ▸ inv_start input)
    (fun _ _ _ h ha => inv_step h ha) (fun _ _ _ _ ha => weight_step ha)
    fun _ h hs => ended_of_stuck hup hdown h hs, ?_⟩
  intro s hs
  have h := inv_of_reachable hs
  refine ⟨fun hzero => ?_, fun he => ?_⟩
  · have hpre : s.seen <+: input := ⟨s.underWay ++ s.stdin, by rw [← h.flow, List.append_assoc]⟩
    rw [h.out_eq fun hmem => hzero (hpre.subset hmem)]
    exact hpre
  · obtain ⟨hseen, hall⟩ := seen_of_ended h he
    refine ⟨s.seen, hseen, fun hok => ?_, out_eq_seen_iff h⟩
    rw [← hseen, hall hok, List.append_nil]

theorem echo_completes_run :
    (machine [104, 105, 0, 33] 2 1).Completes State.Ended ∧
      ∃ s, (machine [104, 105, 0, 33] 2 1).Reachable s ∧ s.Ended ∧ s.out ≠ [104, 105, 0, 33] := by
  obtain ⟨hcompletes, hend⟩ :=
    echo_completes [104, 105, 0, 33] 2 1 (by decide) (by decide)
  obtain ⟨s, hs, htest⟩ := Machine.exists_reachable_of_exec
    (M := machine [104, 105, 0, 33] 2 1) (s := start [104, 105, 0, 33]) rfl
    [.readStdin 4, .send 2, .serverRead 1, .send 1, .serverSend 1, .childRead 1, .serverRead 2,
      .send 1, .serverSend 1, .childRead 1, .closeCfd, .serverSend 1, .stdinEof, .shutdown,
      .childRead 1, .serverRead 1, .serverSend 1, .serverEof, .serverExit, .childRead 1, .childEof,
      .childExit]
    (fun s => s.parent == .exited && s.server == .exited && !s.cfdOpen && s.child == .exited &&
      !s.readFailed) (by decide +kernel)
  simp only [Bool.and_eq_true, beq_iff_eq, Bool.not_eq_true'] at htest
  obtain ⟨⟨⟨⟨hparent, hserver⟩, hcfd⟩, hchild⟩, hok⟩ := htest
  have hended : s.Ended := ⟨hparent, hserver, hcfd, hchild⟩
  obtain ⟨sent, -, hall, hiff⟩ := (hend s hs).2 hended
  obtain rfl := hall hok
  exact ⟨hcompletes, s, hs, hended, fun hout => hiff.mp hout (by decide)⟩

end Tlpi.Sockets.Echo
