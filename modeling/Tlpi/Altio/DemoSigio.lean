import Tlpi.Lib.Machine
import Tlpi.Lib.Progress
import Mathlib.Tactic

/-! `altio/demo_sigio.c`: a loop that reads the terminal only after a signal has told it that there
is input.

Characters are typed and the signal is delivered at any time. The main loop goes round without any
effect, but for its count, while the flag of the handler is not set; these rounds are steps of their
own. The terminal has no more than the characters that `read()` returns. -/

namespace Tlpi.Altio.DemoSigio
open Lib

inductive Pc
  /-- Before `fcntl(F_SETFL)`; the handler and the owner are set. -/
  | setfl
  /-- Before `ttySetCbreak()`. -/
  | cbreak
  | test
  /-- Before `gotSigio = 0`. -/
  | clear
  | read
  /-- Before the last `tcsetattr()`. -/
  | restore
  | exited
  deriving DecidableEq

structure State where
  pc : Pc
  gotSigio : Bool
  done : Bool
  cnt : ℕ
  /-- `O_ASYNC` is set. -/
  async : Bool
  /-- `SIGIO` is pending. -/
  pending : Bool
  tty : List Char
  /-- What will be typed. -/
  left : List Char
  /-- What was typed since the input was last discarded on the way to the main loop. -/
  arrived : List Char
  printed : List (ℕ × Char)

inductive Act
  | type
  /-- The handler runs. -/
  | sigio
  /-- A round of the main loop without the flag. -/
  | idle
  | main
  deriving DecidableEq

/-- Behind the inner loop. -/
def leave (s : State) : State :=
  { s with pc := if s.done then .restore else .test, cnt := s.cnt + 1 }

/-- `read(STDIN_FILENO, &ch, 1) > 0 && !done`, and the body of the inner loop. -/
def readStep (s : State) : State :=
  match s.tty with
  | [] => leave s
  | ch :: tty =>
    -- the character is read before `done` is tested
    if s.done then leave { s with tty }
    else { s with tty, printed := s.printed ++ [(s.cnt, ch)], done := ch = '#' }

def mainStep (s : State) : Option State :=
  match s.pc with
  | .setfl => some { s with pc := .cbreak, async := true }
  -- `TCSAFLUSH` discards the input
  | .cbreak => some { s with pc := .test, tty := [], arrived := [] }
  | .test => if s.gotSigio then some { s with pc := .clear } else none
  | .clear => some { s with pc := .read, gotSigio := false }
  | .read => some (readStep s)
  | .restore => some { s with pc := .exited, tty := [] }
  | .exited => none

def step (s : State) : Act → Option State
  | .type =>
    match s.left with
    | [] => none
    | ch :: left => some { s with
        left
        tty := s.tty ++ [ch]
        arrived := s.arrived ++ [ch]
        pending := s.pending || s.async }
  | .sigio =>
    if s.pending ∧ s.pc ≠ .exited then some { s with pending := false, gotSigio := true } else none
  | .idle =>
    if s.pc = .test ∧ ¬ s.gotSigio then some { s with cnt := s.cnt + 1 } else none
  | .main => mainStep s

def start (input : List Char) : State :=
  ⟨.setfl, false, false, 0, false, false, [], input, [], []⟩

def machine (input : List Char) : Machine State Act where
  init s := s = start input
  step := step

/-- The characters up to the first hash. -/
def upToHash : List Char → List Char
  | [] => []
  | ch :: chs => if ch = '#' then [ch] else ch :: upToHash chs

theorem upToHash_append {p : List Char} (hp : '#' ∉ p) (q : List Char) :
    upToHash (p ++ q) = p ++ upToHash q := by
  induction p with
  | nil => rfl
  | cons ch p ih =>
    rw [List.mem_cons, not_or] at hp
    rw [List.cons_append, upToHash, if_neg (Ne.symm hp.1), ih hp.2, List.cons_append]

theorem upToHash_of_mem {p : List Char} (hp : '#' ∈ p) (q : List Char) :
    upToHash (p ++ q) = upToHash p := by
  induction p with
  | nil => cases hp
  | cons ch p ih =>
    rw [List.cons_append, upToHash, upToHash]
    split
    · rfl
    · next hch => rw [ih ((List.mem_cons.mp hp).resolve_left (Ne.symm hch))]

/-! ## The input -/

def State.chars (s : State) : List Char := s.printed.map Prod.snd

structure Inv (s : State) : Prop where
  setup : s.pc = .setfl ∨ s.pc = .cbreak → s.printed = [] ∧ s.done = false
  async : s.pc ≠ .setfl → s.async = true
  loop : s.pc = .test ∨ s.pc = .clear → s.done = false
  ended : s.pc = .restore ∨ s.pc = .exited → s.done = true
  /-- Until the hash, every character that arrives is read. -/
  unread : s.pc = .test ∨ s.pc = .clear ∨ s.pc = .read → s.done = false →
    '#' ∉ s.chars ∧ s.arrived = s.chars ++ s.tty
  hash : s.done = true → upToHash s.arrived = s.chars ∧ '#' ∈ s.arrived
  /-- Input that is not read has a signal on its way. -/
  signal : s.pc = .test → s.tty ≠ [] → s.pending = true ∨ s.gotSigio = true

variable {s s' : State} {input : List Char}

theorem inv_start (input : List Char) : Inv (start input) where
  setup _ := ⟨rfl, rfl⟩
  async h := absurd rfl h
  loop _ := rfl
  ended h := by simp [start] at h
  unread h := by simp [start] at h
  hash h := by simp [start] at h
  signal h := by simp [start] at h

theorem inv_type (h : Inv s) (hs : step s .type = some s') : Inv s' := by
  rw [step] at hs
  split at hs
  · cases hs
  next ch left hleft =>
  cases hs
  exact { h with
    unread := fun hpc hdone => by
      obtain ⟨hhash, harr⟩ := h.unread hpc hdone
      exact ⟨hhash, by rw [harr, List.append_assoc]; rfl⟩
    hash := fun hdone => by
      obtain ⟨hchars, hmem⟩ := h.hash hdone
      exact ⟨(upToHash_of_mem hmem _).trans hchars, List.mem_append_left _ hmem⟩
    signal := fun hpc _ => by
      have hpc : s.pc = .test := hpc
      exact .inl (by simp [h.async (by simp [hpc])]) }

theorem inv_sigio (h : Inv s) (hs : step s .sigio = some s') : Inv s' := by
  obtain ⟨-, ⟨⟩⟩ := Option.ite_none_right_eq_some.mp hs
  exact { h with signal := fun _ _ => .inr rfl }

theorem inv_idle (h : Inv s) (hs : step s .idle = some s') : Inv s' := by
  obtain ⟨-, ⟨⟩⟩ := Option.ite_none_right_eq_some.mp hs
  exact { h with }

/-- The program reads the next character. -/
theorem inv_read {ch : Char} {tty : List Char} (h : Inv s) (hpc : s.pc = .read)
    (htty : s.tty = ch :: tty) (hdone : s.done = false) :
    Inv { s with tty, printed := s.printed ++ [(s.cnt, ch)], done := ch = '#' } := by
  obtain ⟨hhash, harr⟩ := h.unread (by simp [hpc]) hdone
  rw [htty] at harr
  have hchars : (s.printed ++ [(s.cnt, ch)]).map Prod.snd = s.chars ++ [ch] := by
    simp [State.chars]
  exact {
    setup := by simp [hpc]
    async := h.async
    loop := by simp [hpc]
    ended := by simp [hpc]
    unread := fun _ hch => by
      have hch : ch ≠ '#' := of_decide_eq_false hch
      rw [State.chars, hchars]
      exact ⟨by simp [hhash, hch.symm], by rw [harr, List.append_cons]⟩
    hash := fun hch => by
      have hch : ch = '#' := of_decide_eq_true hch
      rw [State.chars, hchars, harr, upToHash_append hhash, upToHash, if_pos hch]
      exact ⟨rfl, by simp [hch]⟩
    signal := by simp [hpc] }

/-- The program leaves the inner loop, without the hash only if there is no more input. -/
theorem inv_leave (h : Inv s) (hpc : s.pc = .read) (htty : s.done = false → s.tty = []) :
    Inv (leave s) := by
  by_cases hdone : s.done = true
  · rw [leave, if_pos hdone]
    exact {
      setup := by simp
      async := fun _ => h.async (by simp [hpc])
      loop := by simp
      ended := fun _ => hdone
      unread := by simp
      hash := h.hash
      signal := by simp }
  · rw [leave, if_neg hdone]
    have hdone := Bool.eq_false_iff.mpr hdone
    exact {
      setup := by simp
      async := fun _ => h.async (by simp [hpc])
      loop := fun _ => hdone
      ended := by simp
      unread := fun _ => h.unread (.inr (.inr hpc))
      hash := h.hash
      signal := fun _ hne => absurd (htty hdone) hne }

theorem inv_readStep (h : Inv s) (hpc : s.pc = .read) : Inv (readStep s) := by
  rw [readStep]
  split
  · next htty => exact inv_leave h hpc fun _ => htty
  next ch tty htty =>
  split_ifs with hdone
  · refine inv_leave { h with unread := ?_, signal := ?_ } hpc ?_
    · simp [hdone]
    · simp [hpc]
    · simp [hdone]
  · exact inv_read h hpc htty (Bool.eq_false_iff.mpr hdone)

theorem inv_main (h : Inv s) (hs : mainStep s = some s') : Inv s' := by
  cases hpc : s.pc <;> simp only [mainStep, hpc] at hs
  case setfl =>
    cases hs
    obtain ⟨hprinted, hdone⟩ := h.setup (by simp [hpc])
    exact {
      setup := fun _ => ⟨hprinted, hdone⟩
      async := fun _ => rfl
      loop := fun _ => hdone
      ended := by simp
      unread := by simp
      hash := h.hash
      signal := by simp }
  case cbreak =>
    cases hs
    obtain ⟨hprinted, hdone⟩ := h.setup (by simp [hpc])
    exact {
      setup := by simp
      async := fun _ => h.async (by simp [hpc])
      loop := fun _ => hdone
      ended := by simp
      unread := fun _ _ => by simp [State.chars, hprinted]
      hash := by simp [hdone]
      signal := by simp }
  case test =>
    obtain ⟨-, ⟨⟩⟩ := Option.ite_none_right_eq_some.mp hs
    exact {
      setup := by simp
      async := fun _ => h.async (by simp [hpc])
      loop := fun _ => h.loop (.inl hpc)
      ended := by simp
      unread := fun _ => h.unread (.inl hpc)
      hash := h.hash
      signal := by simp }
  case clear =>
    cases hs
    exact {
      setup := by simp
      async := fun _ => h.async (by simp [hpc])
      loop := by simp
      ended := by simp
      unread := fun _ => h.unread (.inr (.inl hpc))
      hash := h.hash
      signal := by simp }
  case read =>
    cases hs
    exact inv_readStep h hpc
  case restore =>
    cases hs
    exact { h with
      setup := by simp
      async := fun _ => h.async (by simp [hpc])
      loop := by simp
      ended := fun _ => h.ended (.inl hpc)
      unread := by simp
      hash := h.hash
      signal := by simp }
  case exited => cases hs

theorem inv_step {a : Act} (h : Inv s) (hs : step s a = some s') : Inv s' := by
  cases a with
  | type => exact inv_type h hs
  | sigio => exact inv_sigio h hs
  | idle => exact inv_idle h hs
  | main => exact inv_main h hs

theorem inv_of_reachable (hs : (machine input).Reachable s) : Inv s := by
  refine hs.invariant (I := Inv) ?_ fun _ _ _ h ha => inv_step h ha
  rintro _ rfl
  exact inv_start input

/-! ## The end of the input -/

def Pc.rank : Pc → ℕ
  | setfl => 3
  | cbreak => 2
  | test => 1
  | clear => 4
  | read => 2
  | restore => 1
  | exited => 0

/-- A character makes work for the handler, and the handler for one round of the main loop. -/
def weight (s : State) : ℕ :=
  8 * s.left.length + s.tty.length + 5 * s.pending.toNat +
    4 * (s.gotSigio && s.pc ≠ .clear).toNat + s.pc.rank

/-- Rounds of the main loop without the flag are not counted. -/
def cost (a : Act) : ℕ := if a = .idle then 1 else 0

theorem rank_leave (s : State) : (leave s).pc.rank = 1 := by
  rw [leave]
  cases s.done <;> rfl

theorem weight_leave (hpc : s.pc = .read) : weight (leave s) < weight s := by
  have hclear : (leave s).pc ≠ .clear := by
    rw [leave]
    cases s.done <;> simp
  rw [weight, rank_leave, weight, hpc]
  simp only [leave] at hclear ⊢
  simp [hclear, Pc.rank]

theorem weight_readStep (hpc : s.pc = .read) : weight (readStep s) < weight s := by
  rw [readStep]
  split
  · exact weight_leave hpc
  next ch tty htty =>
  split_ifs with hdone
  · refine (weight_leave (s := { s with tty }) hpc).trans ?_
    simp [weight, htty]
  · simp [weight, htty]

theorem weight_main (hs : mainStep s = some s') : weight s' < weight s := by
  cases hpc : s.pc <;> simp only [mainStep, hpc] at hs
  case test =>
    obtain ⟨hflag, ⟨⟩⟩ := Option.ite_none_right_eq_some.mp hs
    simp [weight, hpc, hflag, Pc.rank]
  case clear =>
    cases hs
    simp [weight, hpc, Pc.rank]
  case read =>
    cases hs
    exact weight_readStep hpc
  case exited => cases hs
  case setfl | cbreak | restore =>
    cases hs
    simp [weight, hpc, Pc.rank]

theorem weight_step {a : Act} (hs : step s a = some s') : weight s' < weight s + cost a := by
  cases a with
  | type =>
    rw [step] at hs
    split at hs
    · cases hs
    next ch left hleft =>
    cases hs
    have hle := Bool.toNat_le (s.pending || s.async)
    simp only [weight, hleft, List.length_append, List.length_cons, List.length_nil]
    omega
  | sigio =>
    obtain ⟨⟨hpending, -⟩, ⟨⟩⟩ := Option.ite_none_right_eq_some.mp hs
    have hle := Bool.toNat_le (true && s.pc ≠ .clear)
    simp only [weight, hpending, Bool.toNat_true, Bool.toNat_false]
    omega
  | idle =>
    obtain ⟨-, ⟨⟩⟩ := Option.ite_none_right_eq_some.mp hs
    exact Nat.lt_succ_self _
  | main => exact weight_main hs

/-- All characters have been typed. Those up to the first hash have been read, and with it the
program is at its end; without it, the program has nothing left to read. -/
structure Done (s : State) : Prop where
  left : s.left = []
  printed : s.chars = upToHash s.arrived
  pc : (s.pc = .exited ∧ '#' ∈ s.arrived) ∨ (s.pc = .test ∧ s.tty = [] ∧ '#' ∉ s.arrived)

theorem left_of_stuck (hs : step s .type = none) : s.left = [] := by
  rw [step] at hs
  split at hs
  · assumption
  · cases hs

theorem pc_of_stuck (hs : mainStep s = none) :
    s.pc = .exited ∨ (s.pc = .test ∧ s.gotSigio = false) := by
  cases hpc : s.pc <;> simp only [mainStep, hpc] at hs
  case test =>
    split_ifs at hs with hflag
    exact .inr ⟨rfl, Bool.eq_false_iff.mpr hflag⟩
  case exited => exact .inl rfl
  all_goals cases hs

theorem done_of_stuck (h : Inv s) (hs : ∀ a, cost a = 0 → step s a = none) : Done s := by
  have hleft := left_of_stuck (hs .type rfl)
  rcases pc_of_stuck (hs .main rfl) with hpc | ⟨hpc, hflag⟩
  · obtain ⟨hchars, hmem⟩ := h.hash (h.ended (.inr hpc))
    exact ⟨hleft, hchars.symm, .inl ⟨hpc, hmem⟩⟩
  · have hpending : s.pending = false := by
      have hsig := hs .sigio rfl
      simpa [step, hpc] using hsig
    have htty : s.tty = [] := by
      by_contra hne
      have hsignal := h.signal hpc hne
      simp [hpending, hflag] at hsignal
    obtain ⟨hhash, harr⟩ := h.unread (.inl hpc) (h.loop (.inl hpc))
    rw [htty, List.append_nil] at harr
    refine ⟨hleft, ?_, .inr ⟨hpc, htty, harr ▸ hhash⟩⟩
    rw [harr, ← List.append_nil s.chars, upToHash_append hhash]
    rfl

/-- Whatever is printed has been typed, in this order, and nothing behind the first hash is. -/
theorem chars_prefix_upToHash (h : Inv s) : s.chars <+: upToHash s.arrived := by
  cases hdone : s.done with
  | true => exact (h.hash hdone).1 ▸ List.prefix_rfl
  | false =>
    by_cases hpc : s.pc = .test ∨ s.pc = .clear ∨ s.pc = .read
    · obtain ⟨hhash, harr⟩ := h.unread hpc hdone
      rw [harr, upToHash_append hhash]
      exact List.prefix_append _ _
    · have hsetup : s.pc = .setfl ∨ s.pc = .cbreak := by
        have hended := h.ended
        cases hcase : s.pc <;> simp_all
      rw [State.chars, (h.setup hsetup).1]
      exact List.nil_prefix

theorem readStep_typed (s : State) :
    (readStep s).arrived = s.arrived ∧ (readStep s).left = s.left := by
  rw [readStep]
  split
  · exact ⟨rfl, rfl⟩
  · split_ifs <;> exact ⟨rfl, rfl⟩

/-- Characters are lost only before the main loop. -/
theorem typed_step {a : Act} (hs : step s a = some s') :
    s'.arrived ++ s'.left <:+ s.arrived ++ s.left := by
  cases a with
  | type =>
    rw [step] at hs
    split at hs
    · cases hs
    next ch left hleft =>
    cases hs
    rw [hleft, List.append_assoc]
    exact List.suffix_rfl
  | sigio | idle =>
    obtain ⟨-, ⟨⟩⟩ := Option.ite_none_right_eq_some.mp hs
    exact List.suffix_rfl
  | main =>
    have hs : mainStep s = some s' := hs
    cases hpc : s.pc <;> simp only [mainStep, hpc] at hs
    case cbreak =>
      cases hs
      exact List.suffix_append _ _
    case read =>
      cases hs
      rw [(readStep_typed s).1, (readStep_typed s).2]
    case test =>
      obtain ⟨-, ⟨⟩⟩ := Option.ite_none_right_eq_some.mp hs
      exact List.suffix_rfl
    case exited => cases hs
    case setfl | clear | restore =>
      cases hs
      exact List.suffix_rfl

theorem typed_suffix (hs : (machine input).Reachable s) : s.arrived ++ s.left <:+ input := by
  refine hs.invariant (I := fun s => s.arrived ++ s.left <:+ input) ?_ fun _ _ _ h ha =>
    (typed_step ha).trans h
  rintro _ rfl
  exact List.suffix_rfl

/-- No input is stranded: when nothing is left to be typed and no handler to run, the program has
read every character that came after it set up the terminal, up to the first hash, and then it
exits. At any time it has printed a part of these characters in their order. -/
theorem demo_sigio_reads_all (input : List Char) :
    (machine input).CompletesUpTo cost Done ∧
    ∀ s, (machine input).Reachable s →
      s.chars <+: upToHash s.arrived ∧ s.arrived ++ s.left <:+ input := by
  refine ⟨?_, fun s hs => ⟨chars_prefix_upToHash (inv_of_reachable hs), typed_suffix hs⟩⟩
  refine Machine.completesUpTo_of_weight Inv weight cost ?_ (fun _ _ _ h ha => inv_step h ha)
    (fun _ _ _ _ ha => weight_step ha) fun _ h hs => done_of_stuck h hs
  rintro _ rfl
  exact inv_start input

end Tlpi.Altio.DemoSigio
