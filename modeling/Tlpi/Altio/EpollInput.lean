import Tlpi.Lib.Counting
import Tlpi.Lib.CopyLoop
import Tlpi.Lib.Machine
import Tlpi.Lib.Progress
import Mathlib.Tactic

/-! The loop of `altio/epoll_input.c` over the FIFOs that it is given, each of them once, and their
writers, who open their FIFO no second time. The kernel chooses which of the descriptors that are
ready an `epoll_wait()` reports; the events are those of the moment of that call, and the writers
go on while the program deals with them. -/

namespace Tlpi.Altio.EpollInput
open Lib

def MAX_BUF : ℕ := 1000
def MAX_EVENTS : ℕ := 5

structure Fifo (α : Type*) where
  /-- What the writers have yet to write. -/
  left : List α
  /-- The writers have closed their ends. -/
  hungUp : Bool
  bytes : List α
  isOpen : Bool
  /-- What the program has read from it. -/
  received : List α
  deriving DecidableEq

structure Event (ι : Type*) where
  fd : ι
  epollin : Bool
  epollhup : Bool
  deriving DecidableEq

inductive Pc (ι : Type*)
  | wait
  /-- `evlist` from the event at `j` on. -/
  | deal (event : Event ι) (rest : List (Event ι))
  | exited
  deriving DecidableEq

/-- The end of a turn of either loop. -/
def Pc.next {ι : Type*} (numOpenFds : ℕ) : List (Event ι) → Pc ι
  | event :: rest => .deal event rest
  | [] => if 0 < numOpenFds then .wait else .exited

def Pc.events {ι : Type*} : Pc ι → List (Event ι)
  | .deal event rest => event :: rest
  | _ => []

structure State (ι α : Type*) where
  fifos : ι → Fifo α
  numOpenFds : ℕ
  pc : Pc ι

inductive Act (ι : Type*)
  /-- A writer moves `k` bytes into the FIFO. -/
  | write (i : ι) (k : ℕ)
  /-- The last writer closes the FIFO. -/
  | hangUp (i : ι)
  | epollWait (fds : List ι)
  /-- `epoll_wait()` fails with `EINTR`. -/
  | interrupt
  | deal

def Fifo.ready {α : Type*} (f : Fifo α) : Bool := f.isOpen && (!f.bytes.isEmpty || f.hungUp)

def event {ι α : Type*} (fifos : ι → Fifo α) (i : ι) : Event ι :=
  ⟨i, !(fifos i).bytes.isEmpty, (fifos i).hungUp⟩

section Model
variable {ι α : Type*} [DecidableEq ι]

/-- A `read()` on the FIFO. Without a byte in it, it is the end of the file once the writers are
gone, and blocks before that. -/
def Fifo.read (f : Fifo α) : Option (Fifo α) :=
  match readAvailable MAX_BUF f.bytes with
  | some (block, bytes) => some { f with bytes, received := f.received ++ block }
  | none => if f.hungUp then some f else none

/-- The body of the loop over `evlist`. -/
def deal (s : State ι α) (e : Event ι) (rest : List (Event ι)) : Option (State ι α) :=
  if e.epollin then
    (s.fifos e.fd).read.map fun f =>
      ⟨Function.update s.fifos e.fd f, s.numOpenFds, .next s.numOpenFds rest⟩
  else if e.epollhup then
    some ⟨Function.update s.fifos e.fd { s.fifos e.fd with isOpen := false }, s.numOpenFds - 1,
      .next (s.numOpenFds - 1) rest⟩
  else some { s with pc := .next s.numOpenFds rest }

/-- The writers of all the FIFOs and `main()`. -/
def step (cap : ℕ) (s : State ι α) : Act ι → Option (State ι α)
  | .write i k =>
    if (s.fifos i).hungUp then none
    else (putBlock cap k (s.fifos i).left (s.fifos i).bytes).map fun (left, bytes) =>
      { s with fifos := Function.update s.fifos i { s.fifos i with left, bytes } }
  | .hangUp i =>
    if (s.fifos i).left = [] ∧ (s.fifos i).hungUp = false then
      some { s with fifos := Function.update s.fifos i { s.fifos i with hungUp := true } }
    else none
  | .epollWait fds =>
    match s.pc with
    | .wait =>
      if fds ≠ [] ∧ fds.Nodup ∧ fds.length ≤ MAX_EVENTS ∧ ∀ i ∈ fds, (s.fifos i).ready = true then
        some { s with pc := .next s.numOpenFds (fds.map (event s.fifos)) }
      else none
    | _ => none
  | .interrupt => if s.pc = .wait then some s else none
  | .deal =>
    match s.pc with
    | .deal e rest => deal s e rest
    | _ => none

variable [Fintype ι]

/-- The FIFOs are open, and hold nothing yet of the `data` that their writers have for them. -/
def start (data : ι → List α) : State ι α where
  fifos i := ⟨data i, false, [], true, []⟩
  numOpenFds := Fintype.card ι
  pc := .next (Fintype.card ι) []

def machine (cap : ℕ) (data : ι → List α) : Machine (State ι α) (Act ι) where
  init s := s = start data
  step := step cap

end Model

def interrupts {ι : Type*} : Act ι → ℕ
  | .interrupt => 1
  | _ => 0

/-! ## One FIFO -/

section Fifo
variable {ι α : Type*} {data : List α} {f f' : Fifo α} {e : Event ι}

structure FifoInv (data : List α) (f : Fifo α) : Prop where
  stream : f.received ++ f.bytes ++ f.left = data
  left_nil : f.hungUp = true → f.left = []
  closed : f.isOpen = false → f.hungUp = true ∧ f.bytes = []

/-- What an event still says of its FIFO while the program has not come to it: only the program
takes bytes out, and no writer comes back. -/
def EventOk (f : Fifo α) (e : Event ι) : Prop :=
  f.isOpen = true ∧ (e.epollin = true ∧ f.bytes ≠ [] ∨
    e.epollin = false ∧ e.epollhup = true ∧ f.hungUp = true ∧ f.bytes = [])

theorem FifoInv.received_of_closed (h : FifoInv data f) (hopen : f.isOpen = false) :
    f.received = data := by
  obtain ⟨hup, hbytes⟩ := h.closed hopen
  have hstream := h.stream
  rwa [hbytes, h.left_nil hup, List.append_nil, List.append_nil] at hstream

theorem FifoInv.isOpen (h : FifoInv data f) (hup : f.hungUp = false) : f.isOpen = true := by
  by_contra hopen
  exact absurd ((h.closed (Bool.not_eq_true _ ▸ hopen)).1) (by simp [hup])

theorem FifoInv.write {cap k : ℕ} {left bytes : List α} (h : FifoInv data f)
    (hup : f.hungUp = false) (hput : putBlock cap k f.left f.bytes = some (left, bytes)) :
    FifoInv data { f with left, bytes } where
  stream := by
    have hput := (putBlock_eq_some hput).1
    simp only [List.append_assoc, hput]
    rw [← List.append_assoc]
    exact h.stream
  left_nil h' := absurd h' (by simp [hup])
  closed h' := absurd (h.isOpen hup) (by simp [show f.isOpen = false from h'])

theorem FifoInv.hangUp (h : FifoInv data f) (hleft : f.left = []) :
    FifoInv data { f with hungUp := true } where
  stream := h.stream
  left_nil _ := hleft
  closed hopen := ⟨rfl, (h.closed hopen).2⟩

theorem FifoInv.close (h : FifoInv data f) (hup : f.hungUp = true) (hbytes : f.bytes = []) :
    FifoInv data { f with isOpen := false } where
  stream := h.stream
  left_nil := h.left_nil
  closed _ := ⟨hup, hbytes⟩

/-- A read for `EPOLLIN` finds at least a byte. -/
theorem Fifo.read_of_ne (hne : f.bytes ≠ []) :
    ∃ block bytes, f.read = some { f with bytes, received := f.received ++ block } ∧
      block ++ bytes = f.bytes ∧ block ≠ [] := by
  obtain ⟨⟨block, bytes⟩, hread⟩ := Option.ne_none_iff_exists'.mp
    (readAvailable_ne_none (show 0 < MAX_BUF by decide) hne)
  obtain ⟨happend, hblock, -⟩ := takeBlock_eq_some hread
  exact ⟨block, bytes, by simp [Fifo.read, hread], happend, hblock⟩

theorem FifoInv.read {block bytes : List α} (h : FifoInv data f)
    (happend : block ++ bytes = f.bytes)
    (hne : f.bytes ≠ []) : FifoInv data { f with bytes, received := f.received ++ block } where
  stream := by
    have hstream := h.stream
    rw [← happend] at hstream
    simpa only [List.append_assoc] using hstream
  left_nil := h.left_nil
  closed hopen := absurd (h.closed hopen).2 hne

theorem EventOk.write {cap k : ℕ} {left bytes : List α} (h : EventOk f e) (hup : f.hungUp = false)
    (hput : putBlock cap k f.left f.bytes = some (left, bytes)) :
    EventOk { f with left, bytes } e := by
  obtain ⟨hopen, ⟨hin, hne⟩ | ⟨-, -, hup', -⟩⟩ := h
  · refine ⟨hopen, .inl ⟨hin, ?_⟩⟩
    rintro rfl
    obtain ⟨happend, hlt, -⟩ := putBlock_eq_some hput
    have hlen := congrArg List.length happend
    have hpos := List.length_pos_of_ne_nil hne
    simp only [List.length_append, List.length_nil] at hlen
    omega
  · simp [hup] at hup'

theorem EventOk.hangUp (h : EventOk f e) (hup : f.hungUp = false) :
    EventOk { f with hungUp := true } e := by
  obtain ⟨hopen, hin | ⟨-, -, hup', -⟩⟩ := h
  · exact ⟨hopen, .inl hin⟩
  · simp [hup] at hup'

def Fifo.weight (f : Fifo α) : ℕ :=
  3 * f.left.length + 2 * f.bytes.length + (!f.hungUp).toNat + 2 * f.isOpen.toNat

theorem weight_write {cap k : ℕ} {left bytes : List α}
    (hput : putBlock cap k f.left f.bytes = some (left, bytes)) :
    Fifo.weight { f with left, bytes } < f.weight := by
  obtain ⟨happend, hlt, -⟩ := putBlock_eq_some hput
  have hlen := congrArg List.length happend
  simp only [List.length_append] at hlen
  simp only [Fifo.weight]
  omega

theorem weight_hangUp (hup : f.hungUp = false) :
    Fifo.weight { f with hungUp := true } < f.weight := by
  simp [Fifo.weight, hup]

theorem weight_read {block bytes : List α} (happend : block ++ bytes = f.bytes)
    (hblock : block ≠ []) :
    Fifo.weight { f with bytes, received := f.received ++ block } + 2 ≤ f.weight := by
  have hpos := List.length_pos_of_ne_nil hblock
  simp only [Fifo.weight, ← happend, List.length_append]
  omega

theorem weight_close (hopen : f.isOpen = true) :
    Fifo.weight { f with isOpen := false } + 2 ≤ f.weight := by
  simp [Fifo.weight, hopen]

end Fifo

/-! ## The loop -/

section Next
variable {ι : Type*}

@[simp] theorem events_next (n : ℕ) (l : List (Event ι)) : (Pc.next n l).events = l := by
  cases l with
  | nil =>
    rw [Pc.next]
    split_ifs <;> rfl
  | cons => rfl

theorem pos_of_next {n : ℕ} {l : List (Event ι)} (h : Pc.next n l = .wait) : 0 < n := by
  cases l with
  | nil =>
    by_contra hn
    simp [Pc.next, hn] at h
  | cons => cases h

theorem eq_zero_of_next {n : ℕ} {l : List (Event ι)} (h : Pc.next n l = .exited) : n = 0 := by
  cases l with
  | nil =>
    by_contra hn
    simp [Pc.next, Nat.pos_of_ne_zero hn] at h
  | cons => cases h

def Pc.weight : Pc ι → ℕ
  | .wait => 1
  | _ => 0

theorem weight_next_le (n : ℕ) (l : List (Event ι)) : (Pc.next n l).weight ≤ 1 := by
  cases l with
  | nil =>
    rw [Pc.next]
    split_ifs <;> simp [Pc.weight]
  | cons => exact Nat.zero_le 1

end Next

section Loop
variable {ι α : Type*} [DecidableEq ι] {cap : ℕ} {data : ι → List α}
  {s s' : State ι α}

/-- What a step of a writer can be. -/
theorem step_write {i : ι} {k : ℕ} (ha : step cap s (.write i k) = some s') :
    ∃ left bytes, (s.fifos i).hungUp = false ∧
      putBlock cap k (s.fifos i).left (s.fifos i).bytes = some (left, bytes) ∧
      s' = { s with fifos := Function.update s.fifos i { s.fifos i with left, bytes } } := by
  obtain ⟨hup, ha⟩ := Option.ite_none_left_eq_some.mp ha
  obtain ⟨⟨left, bytes⟩, hput, rfl⟩ := Option.map_eq_some_iff.mp ha
  exact ⟨left, bytes, Bool.not_eq_true _ ▸ hup, hput, rfl⟩

theorem step_hangUp {i : ι} (ha : step cap s (.hangUp i) = some s') :
    (s.fifos i).left = [] ∧ (s.fifos i).hungUp = false ∧
      s' = { s with fifos := Function.update s.fifos i { s.fifos i with hungUp := true } } := by
  obtain ⟨⟨hleft, hup⟩, ha⟩ := Option.ite_none_right_eq_some.mp ha
  exact ⟨hleft, hup, (Option.some.inj ha).symm⟩

theorem step_epollWait {fds : List ι} (ha : step cap s (.epollWait fds) = some s') :
    s.pc = .wait ∧ fds ≠ [] ∧ fds.Nodup ∧ (∀ i ∈ fds, (s.fifos i).ready = true) ∧
      s' = { s with pc := .next s.numOpenFds (fds.map (event s.fifos)) } := by
  rw [step] at ha
  cases hpc : s.pc with
  | wait =>
    rw [hpc] at ha
    obtain ⟨⟨hne, hnodup, -, hready⟩, ha⟩ := Option.ite_none_right_eq_some.mp ha
    exact ⟨rfl, hne, hnodup, hready, (Option.some.inj ha).symm⟩
  | deal | exited => simp [hpc] at ha

theorem step_deal (ha : step cap s .deal = some s') :
    ∃ e rest, s.pc = .deal e rest ∧ deal s e rest = some s' := by
  rw [step] at ha
  cases hpc : s.pc with
  | deal e rest => exact ⟨e, rest, rfl, by simpa only [hpc] using ha⟩
  | wait | exited => simp [hpc] at ha

omit [DecidableEq ι] in
theorem eventOk_event {i : ι} (h : (s.fifos i).ready = true) :
    EventOk (s.fifos i) (event s.fifos i) := by
  obtain ⟨hopen, hready⟩ := Bool.and_eq_true_iff.mp h
  refine ⟨hopen, ?_⟩
  by_cases hbytes : (s.fifos i).bytes = []
  · have hup : (s.fifos i).hungUp = true := by simpa [hbytes] using hready
    exact .inr ⟨by simp [event, hbytes], hup, hup, hbytes⟩
  · exact .inl ⟨by simp [event, hbytes], hbytes⟩

/-- An open FIFO gives someone something to do: there is a byte or a hang-up to report, or its
writers can go on. -/
theorem exists_step_of_open (hcap : 0 < cap) {i : ι} (hpc : s.pc = .wait)
    (hopen : (s.fifos i).isOpen = true) :
    ∃ a, interrupts a = 0 ∧ step cap s a ≠ none := by
  by_cases hready : (s.fifos i).ready = true
  · refine ⟨.epollWait [i], rfl, ?_⟩
    simp [step, hpc, hready, MAX_EVENTS]
  · have hidle : (s.fifos i).bytes = [] ∧ (s.fifos i).hungUp = false := by
      simpa [Fifo.ready, hopen] using hready
    cases hleft : (s.fifos i).left with
    | nil => exact ⟨.hangUp i, rfl, by simp [step, hleft, hidle.2]⟩
    | cons b left =>
      refine ⟨.write i 1, rfl, ?_⟩
      simp [step, hleft, hidle, putBlock_one hcap]

variable [Fintype ι]

structure Inv (data : ι → List α) (s : State ι α) : Prop where
  fifos : ∀ i, FifoInv (data i) (s.fifos i)
  count : s.numOpenFds = Finset.card {i | (s.fifos i).isOpen = true}
  nodup : (s.pc.events.map Event.fd).Nodup
  events : ∀ e ∈ s.pc.events, EventOk (s.fifos e.fd) e
  wait : s.pc = .wait → 0 < s.numOpenFds
  exited : s.pc = .exited → s.numOpenFds = 0

/-- Dealing with an event leaves the other events as they are. -/
theorem inv_dealt {i : ι} {f : Fifo α} {n : ℕ} {rest : List (Event ι)} (h : Inv data s)
    (hf : FifoInv (data i) f)
    (hcount : n = Finset.card {k | (Function.update s.fifos i f k).isOpen = true})
    (hnodup : (rest.map Event.fd).Nodup) (hevents : ∀ e ∈ rest, EventOk (s.fifos e.fd) e)
    (hi : i ∉ rest.map Event.fd) :
    Inv data ⟨Function.update s.fifos i f, n, .next n rest⟩ where
  fifos := (Function.forall_update_iff s.fifos fun k f => FifoInv (data k) f).mpr
    ⟨hf, fun k _ => h.fifos k⟩
  count := hcount
  nodup := by simpa using hnodup
  events e he := by
    rw [events_next] at he
    have hne : e.fd ≠ i := fun heq => hi (heq ▸ List.mem_map_of_mem he)
    simpa only [Function.update_of_ne hne] using hevents e he
  wait := pos_of_next
  exited := eq_zero_of_next

/-- A step of a writer. -/
theorem inv_writer {i : ι} {f : Fifo α} (h : Inv data s) (hf : FifoInv (data i) f)
    (hopen : f.isOpen = (s.fifos i).isOpen)
    (hevents : ∀ e : Event ι, EventOk (s.fifos i) e → EventOk f e) :
    Inv data { s with fifos := Function.update s.fifos i f } where
  fifos := (Function.forall_update_iff s.fifos fun k f => FifoInv (data k) f).mpr
    ⟨hf, fun k _ => h.fifos k⟩
  count := h.count.trans
    (card_update_of_iff (P := fun f : Fifo α => f.isOpen = true) (by rw [hopen])).symm
  nodup := h.nodup
  events e he := by
    by_cases hk : e.fd = i
    · subst hk
      simpa only [Function.update_self] using hevents e (h.events e he)
    · simpa only [Function.update_of_ne hk] using h.events e he
  wait := h.wait
  exited := h.exited

omit [DecidableEq ι] in
theorem inv_epollWait {fds : List ι} (h : Inv data s) (hnodup : fds.Nodup)
    (hready : ∀ i ∈ fds, (s.fifos i).ready = true) :
    Inv data { s with pc := .next s.numOpenFds (fds.map (event s.fifos)) } where
  fifos := h.fifos
  count := h.count
  nodup := by
    have hfd : Event.fd ∘ event s.fifos = id := rfl
    simpa [hfd] using hnodup
  events e he := by
    rw [events_next] at he
    obtain ⟨i, hi, rfl⟩ := List.mem_map.mp he
    exact eventOk_event (hready i hi)
  wait := pos_of_next
  exited := eq_zero_of_next

/-- What the program does with its next event: it reads for `EPOLLIN`, and closes the descriptor for
`EPOLLHUP` alone. -/
theorem deal_cases {e : Event ι} {rest : List (Event ι)} (h : Inv data s)
    (hpc : s.pc = .deal e rest) :
    ∃ f n, deal s e rest = some ⟨Function.update s.fifos e.fd f, n, .next n rest⟩ ∧
      FifoInv (data e.fd) f ∧
      n = Finset.card {k | (Function.update s.fifos e.fd f k).isOpen = true} ∧
      f.weight + 2 ≤ (s.fifos e.fd).weight := by
  have hcount := h.count
  obtain ⟨hopen, ⟨hin, hne⟩ | ⟨hin, hhup, hup, hbytes⟩⟩ := h.events e (by simp [hpc, Pc.events])
  · obtain ⟨block, bytes, hread, happend, hblock⟩ := Fifo.read_of_ne hne
    refine ⟨_, s.numOpenFds, ?_, (h.fifos e.fd).read happend hne, ?_, weight_read happend hblock⟩
    · rw [deal, if_pos hin, hread]
      rfl
    · refine hcount.trans (card_update_of_iff (P := fun f : Fifo α => f.isOpen = true) ?_).symm
      rfl
  · refine ⟨_, s.numOpenFds - 1, ?_, (h.fifos e.fd).close hup hbytes, ?_, weight_close hopen⟩
    · rw [deal, if_neg (by simp [hin]), if_pos hhup]
    · have hcard := card_update_of_not (P := fun f : Fifo α => f.isOpen = true) (f := s.fifos)
        (i := e.fd) (a := { s.fifos e.fd with isOpen := false }) hopen (by simp)
      exact (Nat.eq_sub_of_add_eq (hcard.trans hcount.symm)).symm

theorem inv_deal {e : Event ι} {rest : List (Event ι)} (h : Inv data s) (hpc : s.pc = .deal e rest)
    (ha : deal s e rest = some s') : Inv data s' := by
  obtain ⟨f, n, hdeal, hf, hcount, -⟩ := deal_cases h hpc
  obtain rfl := Option.some.inj (hdeal.symm.trans ha)
  have hnodup := h.nodup
  have hevents := h.events
  rw [hpc] at hnodup hevents
  obtain ⟨hi, hnodup⟩ := List.nodup_cons.mp hnodup
  exact inv_dealt h hf hcount hnodup (fun e he => hevents e (List.mem_cons_of_mem _ he)) hi

theorem inv_step (h : Inv data s) {a : Act ι} (ha : step cap s a = some s') : Inv data s' := by
  cases a with
  | write i k =>
    obtain ⟨left, bytes, hup, hput, rfl⟩ := step_write ha
    exact inv_writer h ((h.fifos i).write hup hput) rfl fun _ he => he.write hup hput
  | hangUp i =>
    obtain ⟨hleft, hup, rfl⟩ := step_hangUp ha
    exact inv_writer h ((h.fifos i).hangUp hleft) rfl fun _ he => he.hangUp hup
  | epollWait fds =>
    obtain ⟨-, -, hnodup, hready, rfl⟩ := step_epollWait ha
    exact inv_epollWait h hnodup hready
  | interrupt =>
    obtain ⟨-, ha⟩ := Option.ite_none_right_eq_some.mp ha
    exact Option.some.inj ha ▸ h
  | deal =>
    obtain ⟨e, rest, hpc, ha⟩ := step_deal ha
    exact inv_deal h hpc ha

omit [DecidableEq ι] in
theorem inv_start (data : ι → List α) : Inv data (start data) where
  fifos i := ⟨rfl, fun h => absurd h (by simp [start]), fun h => absurd h (by simp [start])⟩
  count := by simp [start]
  nodup := by simp [start]
  events := by simp [start]
  wait := pos_of_next (l := ([] : List (Event ι)))
  exited := eq_zero_of_next (l := ([] : List (Event ι)))

theorem inv_of_reachable (hs : (machine cap data).Reachable s) : Inv data s := by
  refine hs.invariant (I := Inv data) ?_ fun _ _ _ h ha => inv_step h ha
  rintro _ rfl
  exact inv_start data

/-! ### Every run ends -/

def weight (s : State ι α) : ℕ := ∑ i, (s.fifos i).weight + s.pc.weight

theorem weight_writer {i : ι} {f : Fifo α} (hlt : f.weight < (s.fifos i).weight) :
    weight { s with fifos := Function.update s.fifos i f } < weight s := by
  have hsum := sum_update Fifo.weight s.fifos i f
  simp only [weight]
  omega

theorem weight_step (h : Inv data s) {a : Act ι} (ha : step cap s a = some s') :
    weight s' < weight s + interrupts a := by
  cases a with
  | write i k =>
    obtain ⟨left, bytes, -, hput, rfl⟩ := step_write ha
    exact weight_writer (weight_write hput)
  | hangUp i =>
    obtain ⟨-, hup, rfl⟩ := step_hangUp ha
    exact weight_writer (weight_hangUp hup)
  | epollWait fds =>
    obtain ⟨hpc, hne, -, -, rfl⟩ := step_epollWait ha
    obtain ⟨i, fds, rfl⟩ := List.exists_cons_of_ne_nil hne
    simp [weight, hpc, Pc.weight, Pc.next, interrupts]
  | interrupt =>
    obtain ⟨-, ha⟩ := Option.ite_none_right_eq_some.mp ha
    exact Option.some.inj ha ▸ Nat.lt_succ_self _
  | deal =>
    obtain ⟨e, rest, hpc, ha⟩ := step_deal ha
    obtain ⟨f, n, hdeal, -, -, hle⟩ := deal_cases h hpc
    obtain rfl := Option.some.inj (hdeal.symm.trans ha)
    have hsum := sum_update Fifo.weight s.fifos e.fd f
    have hnext := weight_next_le n rest
    simp only [weight, interrupts]
    omega

theorem exited_of_stuck (hcap : 0 < cap) (h : Inv data s)
    (hs : ∀ a, interrupts a = 0 → step cap s a = none) : s.pc = .exited := by
  cases hpc : s.pc with
  | wait =>
    have hpos := h.wait hpc
    rw [h.count, Finset.card_pos] at hpos
    obtain ⟨i, hi⟩ := hpos
    obtain ⟨a, hcost, ha⟩ := exists_step_of_open hcap hpc (Finset.mem_filter.mp hi).2
    exact absurd (hs a hcost) ha
  | deal e rest =>
    obtain ⟨f, n, hdeal, -⟩ := deal_cases h hpc
    have hnone := hs .deal rfl
    simp [step, hpc, hdeal] at hnone
  | exited => rfl

omit [DecidableEq ι] in
theorem Inv.closed_of_exited (h : Inv data s) (hpc : s.pc = .exited) (i : ι) :
    (s.fifos i).isOpen = false := by
  have hcard := h.count
  rw [h.exited hpc, eq_comm, Finset.card_eq_zero] at hcard
  by_contra hopen
  exact Finset.notMem_empty i
    (hcard ▸ Finset.mem_filter.mpr ⟨Finset.mem_univ i, by simpa using hopen⟩)

end Loop

end Tlpi.Altio.EpollInput
