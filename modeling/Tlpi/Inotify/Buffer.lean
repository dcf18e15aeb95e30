import Mathlib.Tactic
import Tlpi.Inotify.Chunks

/-! The buffer of `processInotifyEvents()` byte by byte: `buf`, `numRead` and `evp` as the source
has them, the loop that moves a hanging event to the start of the buffer, and the sizes that
`read()` is asked for. A byte of the buffer is known by the event that it belongs to and by its
place there. Each round of the loop is a round of the loop over lists of events. -/

namespace Tlpi.Inotify
open Lib

variable {σ : Type} {K : Kernel σ} {cfg : Config}

/-! ## Bytes -/

abbrev Cell := Event × ℤ

/-- The bytes from `buf` on; those that nothing has been read to are `none`. -/
structure Buf where
  cell : ℤ → Option Cell

/-- The byte at an offset of events that follow each other. -/
def cellAt : List Event → ℤ → Option Cell
  | [], _ => none
  | ev :: evs, i => if i < ev.size then some (ev, i) else cellAt evs (i - ev.size)

/-- What `read()` leaves in the buffer. -/
def written (buf : Buf) (off : ℤ) (evs : List Event) : Buf where
  cell i := if off ≤ i ∧ i < off + bytes evs then cellAt evs (i - off) else buf.cell i

/-- The assignment `buf[j] = evp[j]`. -/
def shuffleByte (evp : ℤ) (buf : Buf) (j : ℕ) : Buf :=
  ⟨Function.update buf.cell j (buf.cell (evp + j))⟩

/-- The loop that shuffles the remaining bytes to the start of the buffer. -/
def shuffle (buf : Buf) (evp numRead : ℤ) : Buf :=
  (List.range numRead.toNat).foldl (shuffleByte evp) buf

/-- The event that a pointer into the buffer points to. -/
def eventAt (buf : Buf) (p : ℤ) : Option Event :=
  match buf.cell p with
  | none => none
  | some (ev, _) =>
    if ∀ j ∈ List.range ev.size.toNat, buf.cell (p + (j : ℤ)) = some (ev, (j : ℤ)) then some ev
    else none

/-- The buffer starts with the events. -/
def Holds (buf : Buf) (evs : List Event) : Prop :=
  ∀ i, 0 ≤ i → i < bytes evs → buf.cell i = cellAt evs i

theorem bytes_append (evs evs' : List Event) : bytes (evs ++ evs') = bytes evs + bytes evs' := by
  simp [bytes]

section Cells
variable {buf : Buf} {evs evs' : List Event} {ev : Event} {i n evp : ℤ}

theorem cellAt_append_left (hi : 0 ≤ i) (h : i < bytes evs) :
    cellAt (evs ++ evs') i = cellAt evs i := by
  induction evs generalizing i with
  | nil => exact absurd h (not_lt.mpr hi)
  | cons ev evs ih =>
    rw [bytes_cons] at h
    rw [List.cons_append, cellAt, cellAt]
    split_ifs with hfirst
    · rfl
    · exact ih (by omega) (by omega)

theorem cellAt_append_right (hi : 0 ≤ i) :
    cellAt (evs ++ evs') (bytes evs + i) = cellAt evs' i := by
  induction evs with
  | nil => rw [List.nil_append, bytes_nil, zero_add]
  | cons ev evs ih =>
    have hrest := bytes_nonneg evs
    rw [List.cons_append, bytes_cons, cellAt, if_neg (by omega), ← ih]
    congr 1
    ring

theorem holds_written (buf : Buf) (evs : List Event) : Holds (written buf 0 evs) evs := by
  intro i hi hlt
  show (if _ then _ else _) = _
  rw [if_pos ⟨hi, by omega⟩, sub_zero]

/-- Events that are read behind others. -/
theorem Holds.written (h : Holds buf evs) (evs' : List Event) :
    Holds (written buf (bytes evs) evs') (evs ++ evs') := by
  intro i hi hlt
  rw [bytes_append] at hlt
  show (if _ then _ else _) = _
  split_ifs with hnew
  · have hright := @cellAt_append_right evs evs' (i - bytes evs) (by omega)
    rw [← hright]
    congr 1
    ring
  · have hold : i < bytes evs := by omega
    rw [cellAt_append_left hi hold, h i hi hold]

/-- A byte is read before the loop writes to its place. -/
theorem shuffle_apply (hevp : 0 ≤ evp) (n i : ℤ) :
    (shuffle buf evp n).cell i = if 0 ≤ i ∧ i < n then buf.cell (evp + i) else buf.cell i := by
  have hloop : ∀ (k : ℕ) (i : ℤ), ((List.range k).foldl (shuffleByte evp) buf).cell i =
      if 0 ≤ i ∧ i < k then buf.cell (evp + i) else buf.cell i := by
    intro k
    induction k with
    | zero =>
      intro i
      rw [List.range_zero, List.foldl_nil, if_neg (by omega)]
    | succ k ih =>
      intro i
      rw [List.range_succ, List.foldl_append, List.foldl_cons, List.foldl_nil]
      show Function.update _ _ _ i = _
      by_cases hk : i = k
      · rw [hk, Function.update_self, ih, if_neg (by omega), if_pos (by omega)]
      · rw [Function.update_of_ne hk, ih]
        split_ifs <;> first | rfl | omega
  rw [shuffle, hloop]
  split_ifs <;> first | rfl | omega

theorem Holds.shuffle (h : Holds buf (evs ++ evs')) :
    Holds (shuffle buf (bytes evs) (bytes evs')) evs' := by
  intro i hi hlt
  have hdone := bytes_nonneg evs
  rw [shuffle_apply hdone, if_pos ⟨hi, hlt⟩, h _ (by omega) (by rw [bytes_append]; omega),
    cellAt_append_right hi]

theorem Holds.eventAt (h : Holds buf (evs ++ ev :: evs')) :
    eventAt buf (bytes evs) = some ev := by
  have hcell : ∀ j, 0 ≤ j → j < ev.size → buf.cell (bytes evs + j) = some (ev, j) := by
    intro j hj hlt
    have hdone := bytes_nonneg evs
    have hrest := bytes_nonneg evs'
    rw [h _ (by omega) (by rw [bytes_append, bytes_cons]; omega), cellAt_append_right hj, cellAt,
      if_pos hlt]
  have hfirst := hcell 0 le_rfl ev.size_pos
  rw [add_zero] at hfirst
  simp only [Inotify.eventAt, hfirst]
  refine if_pos ?_
  intro j hj
  have := List.mem_range.mp hj
  exact hcell j (by omega) (by omega)

end Cells

/-! ## The loop -/

/-- The locals of `processInotifyEvents()`. The last two fields are not in the source: `held` are
the events that have been read to the buffer and are still in it, and `discarded` says that the last
event led to a `reinitialize()`. -/
structure Locals (σ : Type) where
  d : Dtree σ
  buf : Buf
  numRead : ℤ
  evp : ℤ
  firstTry : Bool
  held : List Event
  discarded : Bool

/-- Behind `n` bytes that have been processed. -/
def Locals.moved (s : Locals σ) (d : Dtree σ) (n : ℤ) (discarded : Bool) : Locals σ :=
  { s with
    d := d
    evp := s.evp + n
    firstTry := true
    discarded := discarded }

/-- What can be seen of a run: a `read()` with the size it is asked for, the bytes that are free in
the buffer and whether it ends with `EINTR` at the timeout; and a test of the loop condition. -/
inductive Observation
  | read (asked free : ℤ) (timedOut : Bool)
  | test (buf : Buf) (numRead evp : ℤ) (held : List Event) (discarded : Bool)

def Observation.timedOut : Observation → Bool
  | .read _ _ timedOut => timedOut
  | .test _ _ _ _ _ => false

/-- The second `read()`, whose size is converted to a `size_t`. -/
def secondary (K : Kernel σ) (s : Locals σ) : List Observation × Except (Exit σ) (Locals σ) :=
  let numRead := s.numRead - s.evp
  let buf := shuffle s.buf s.evp numRead
  let held := dropBytes s.evp s.held
  let asked := (INOTIFY_READ_BUF_LEN - numRead) % 2 ^ 64
  let free := INOTIFY_READ_BUF_LEN - bytes held
  match K.read s.d.kernel asked with
  | (k, .events evs) =>
    ([.read asked free false],
      if evs = [] then .error ⟨.exitFailure, { s.d with kernel := k }⟩
      else .ok ⟨{ s.d with kernel := k }, written buf numRead evs, numRead + bytes evs, 0, false,
        held ++ evs, false⟩)
  -- `errno` is never -1, so that the result -1 of `read()` is added to `numRead`
  | (k, .eintr) =>
    ([.read asked free true],
      .ok ⟨{ s.d with kernel := k }, buf, numRead - 1, 0, false, held, false⟩)
  | (k, .error) => ([.read asked free false], .error ⟨.exitFailure, { s.d with kernel := k }⟩)

/-- The loop body for the event `ev`, where `next` is the event behind it in the buffer. -/
def handled (K : Kernel σ) (cfg : Config) (s : Locals σ) (ev : Event) (next : Option Event) :
    List Observation × Except (Exit σ) (Locals σ) :=
  match processEvent K cfg s.d ev next s.firstTry with
  | .error e => ([], .error e)
  | .ok (d, ret) =>
    let evLen := ret.evLen ev next.toList
    if 0 < evLen then ([], .ok (s.moved d evLen (ret = .discard)))
    else secondary K { s with d := d }

def round (K : Kernel σ) (cfg : Config) (s : Locals σ) :
    List Observation × Except (Exit σ) (Locals σ) :=
  match eventAt s.buf s.evp with
  | none => ([], .error ⟨.fault, s.d⟩)
  | some ev =>
    handled K cfg s ev
      (if ev.size < s.numRead - s.evp then eventAt s.buf (s.evp + ev.size) else none)

/-- What is seen of at most `fuel` rounds. -/
def observedLoop (K : Kernel σ) (cfg : Config) : ℕ → Locals σ → List Observation
  | 0, _ => []
  | fuel + 1, s =>
    .test s.buf s.numRead s.evp s.held s.discarded ::
      if s.evp < s.numRead then
        (round K cfg s).1 ++
          match (round K cfg s).2 with
          | .ok s' => observedLoop K cfg fuel s'
          | .error _ => []
      else []

theorem mem_observedLoop_succ {fuel : ℕ} {s : Locals σ} {o : Observation} :
    o ∈ observedLoop K cfg (fuel + 1) s ↔ o = .test s.buf s.numRead s.evp s.held s.discarded ∨
      s.evp < s.numRead ∧ (o ∈ (round K cfg s).1 ∨
        ∃ s', (round K cfg s).2 = .ok s' ∧ o ∈ observedLoop K cfg fuel s') := by
  rw [observedLoop, List.mem_cons]
  by_cases hlt : s.evp < s.numRead
  · rw [if_pos hlt, List.mem_append]
    rcases (round K cfg s).2 with e | s' <;> simp [hlt]
  · simp [hlt]

/-- The state before the loop. -/
def loopStart (K : Kernel σ) (cfg : Config) (d : Dtree σ) : Except (Exit σ) (Locals σ) :=
  match K.read d.kernel cfg.cnt with
  | (k, .events evs) =>
    if evs = [] then .error ⟨.exitFailure, { d with kernel := k }⟩
    else .ok ⟨{ d with kernel := k }, written ⟨fun _ => none⟩ 0 evs, bytes evs, 0, true, evs, false⟩
  | (k, _) => .error ⟨.exitFailure, { d with kernel := k }⟩

/-- What is seen of a call of `processInotifyEvents()`. -/
def observed (K : Kernel σ) (cfg : Config) (fuel : ℕ) (d : Dtree σ) : List Observation :=
  .read cfg.cnt INOTIFY_READ_BUF_LEN false ::
    match loopStart K cfg d with
    | .ok s => observedLoop K cfg fuel s
    | .error _ => []

/-- `read()` returns at most as many bytes as it is asked for. -/
def Bounded (K : Kernel σ) : Prop :=
  ∀ k n k' evs, K.read k n = (k', .events evs) → bytes evs ≤ n

/-! ## The account of the bytes -/

structure Account (buf : Buf) (numRead evp : ℤ) (held : List Event) : Prop where
  holds : Holds buf held
  numRead_eq : numRead = bytes held
  numRead_nonneg : 0 ≤ numRead
  numRead_le : numRead ≤ INOTIFY_READ_BUF_LEN
  boundary : ∃ k, evp = bytes (held.take k)
  evp_le : evp ≤ numRead

def Observation.Ok : Observation → Prop
  | .read asked free _ => asked ≤ free
  | .test buf numRead evp held discarded => discarded = true ∨ Account buf numRead evp held

/-- The count is that of the events in the buffer, some of which have been processed. -/
structure Exact (s : Locals σ) : Prop where
  holds : Holds s.buf s.held
  numRead_eq : s.numRead = bytes s.held
  numRead_le : s.numRead ≤ INOTIFY_READ_BUF_LEN
  boundary : ∃ done rest, s.held = done ++ rest ∧ s.evp = bytes done

/-- The second `read()` has timed out, and one byte is missing in the count. -/
structure Late (s : Locals σ) (ev : Event) : Prop where
  holds : Holds s.buf s.held
  held_eq : s.held = [ev]
  numRead_eq : s.numRead = ev.size - 1
  evp_eq : s.evp = 0
  size_le : ev.size ≤ INOTIFY_READ_BUF_LEN
  firstTry : s.firstTry = false
  discarded : s.discarded = false

/-- What a round can do: end the process; keep the count exact; skip the rest of the buffer; or wait
for more events in vain. -/
inductive Outcome (r : List Observation × Except (Exit σ) (Locals σ)) : Prop
  | exit (e : Exit σ) (h : r.2 = .error e) (hok : ∀ o ∈ r.1, o.Ok ∧ o.timedOut = false)
  | next (s : Locals σ) (h : r.2 = .ok s) (hok : ∀ o ∈ r.1, o.Ok ∧ o.timedOut = false)
      (hs : Exact s)
  | skipped (s : Locals σ) (h : r.2 = .ok s) (hnone : r.1 = []) (hdiscarded : s.discarded = true)
      (hend : s.numRead ≤ s.evp)
  | late (s : Locals σ) (h : r.2 = .ok s) (hok : ∀ o ∈ r.1, o.Ok)
      (htimeout : ∃ o ∈ r.1, o.timedOut = true) (ev : Event) (hs : Late s ev)

section Round
variable {s : Locals σ} {done rest : List Event} {ev : Event}

theorem Exact.account (h : Exact s) : Account s.buf s.numRead s.evp s.held := by
  obtain ⟨hholds, hnum, hle, done, rest, hheld, hevp⟩ := h
  refine ⟨hholds, hnum, ?_, hle, ⟨done.length, ?_⟩, ?_⟩
  · rw [hnum]
    exact bytes_nonneg _
  · rw [hheld, List.take_left, hevp]
  · have hrest := bytes_nonneg rest
    rw [hnum, hheld, bytes_append, hevp]
    omega

theorem Late.not_account (h : Late s ev) : ¬ Account s.buf s.numRead s.evp s.held := by
  intro haccount
  have hnum := haccount.numRead_eq
  rw [h.numRead_eq, h.held_eq, bytes_cons, bytes_nil] at hnum
  omega

/-- The buffer from `evp` on. -/
def Locals.toLoop (s : Locals σ) : Loop σ :=
  ⟨s.d, dropBytes s.evp s.held, s.numRead - s.evp, s.firstTry⟩

/-- The loop is at the event `ev`, and the count is exact or misses a byte of the last event. -/
structure At (s : Locals σ) (done : List Event) (ev : Event) (rest : List Event) : Prop where
  holds : Holds s.buf (done ++ ev :: rest)
  held_eq : s.held = done ++ ev :: rest
  evp_eq : s.evp = bytes done
  count : s.numRead - s.evp = bytes (ev :: rest) ∨ rest = [] ∧ s.numRead - s.evp = ev.size - 1

theorem Exact.at (h : Exact s) (hlt : s.evp < s.numRead) :
    ∃ done ev rest, At s done ev rest ∧ s.numRead - s.evp = bytes (ev :: rest) := by
  obtain ⟨hholds, hnum, -, done, rest, hheld, hevp⟩ := h
  have hcount : s.numRead - s.evp = bytes rest := by
    rw [hnum, hheld, bytes_append, hevp, add_sub_cancel_left]
  cases rest with
  | nil =>
    rw [bytes_nil] at hcount
    omega
  | cons ev rest => exact ⟨done, ev, rest, ⟨hheld ▸ hholds, hheld, hevp, .inl hcount⟩, hcount⟩

theorem Late.at (h : Late s ev) : At s [] ev [] := by
  refine ⟨?_, h.held_eq, h.evp_eq, .inr ⟨rfl, ?_⟩⟩
  · rw [List.nil_append, ← h.held_eq]
    exact h.holds
  · rw [h.numRead_eq, h.evp_eq, sub_zero]

/-- The next event starts before the end of what has been read, if there is one. -/
theorem At.lt_iff (h : At s done ev rest) : ev.size < s.numRead - s.evp ↔ rest ≠ [] := by
  rcases h.count with hcount | ⟨rfl, hcount⟩
  · rw [hcount, bytes_cons]
    cases rest with
    | nil => simp
    | cons next rest =>
      have hpos := bytes_pos (List.cons_ne_nil next rest)
      exact iff_of_true (by omega) (List.cons_ne_nil next rest)
  · rw [hcount]
    simp

theorem At.nextEvent_eq (h : At s done ev rest) :
    nextEvent ev rest (s.numRead - s.evp) = rest.head? := by
  cases rest with
  | nil => exact if_neg fun hlt => h.lt_iff.mp hlt rfl
  | cons next rest => exact if_pos (h.lt_iff.mpr (List.cons_ne_nil next rest))

theorem At.round_eq (h : At s done ev rest) : round K cfg s = handled K cfg s ev rest.head? := by
  have hnext : (if ev.size < s.numRead - s.evp then eventAt s.buf (s.evp + ev.size) else none) =
      rest.head? := by
    cases rest with
    | nil => exact if_neg fun hlt => h.lt_iff.mp hlt rfl
    | cons next rest =>
      have hholds : Holds s.buf ((done ++ [ev]) ++ next :: rest) := by
        rw [List.append_assoc]
        exact h.holds
      have hat := hholds.eventAt
      rw [bytes_append, bytes_cons, bytes_nil, add_zero] at hat
      rw [if_pos (h.lt_iff.mpr (List.cons_ne_nil next rest)), h.evp_eq, hat, List.head?_cons]
  rw [round, h.evp_eq, h.holds.eventAt, ← h.evp_eq]
  simp only [hnext]

theorem dropBytes_add {n : ℤ} (hn : 0 ≤ n) (done evs : List Event) :
    dropBytes (bytes done + n) (done ++ evs) = dropBytes n evs := by
  induction done with
  | nil => rw [bytes_nil, zero_add, List.nil_append]
  | cons ev done ih =>
    have hpos : ¬ bytes (ev :: done) + n ≤ 0 := by
      have := bytes_pos (List.cons_ne_nil ev done)
      omega
    rw [List.cons_append, dropBytes, if_neg hpos, ← ih, bytes_cons]
    congr 1
    ring

/-- What the loop body does at `ev`, to the buffer and to a list of events. -/
inductive Handled (K : Kernel σ) (s : Locals σ) (ev : Event) (rest : List Event)
    (r : List Observation × Except (Exit σ) (Locals σ)) (l : Except (Exit σ) (Loop σ)) : Prop
  | exit (e : Exit σ) (hr : r = ([], .error e)) (hl : l = .error e)
  | moved (d : Dtree σ) (evs rest' : List Event) (hrest : rest = evs ++ rest')
      (hr : r = ([], .ok (s.moved d (bytes (ev :: evs)) false)))
      (hl : l = .ok (s.moved d (bytes (ev :: evs)) false).toLoop)
  | discarded (d : Dtree σ) (hr : r = ([], .ok (s.moved d INOTIFY_READ_BUF_LEN true)))
      (hl : l = .ok (s.moved d INOTIFY_READ_BUF_LEN true).toLoop)
  | hanging (hrest : rest = []) (hfirst : s.firstTry = true) (hr : r = secondary K s)
      (hl : l = secondRead K s.d [ev] (s.numRead - s.evp))

theorem At.held_drop (h : At s done ev rest) : dropBytes s.evp s.held = ev :: rest := by
  rw [h.held_eq, h.evp_eq, dropBytes_append]

theorem At.toLoop_eq (h : At s done ev rest) :
    s.toLoop = ⟨s.d, ev :: rest, s.numRead - s.evp, s.firstTry⟩ := by
  rw [Locals.toLoop, h.held_drop]

theorem At.toLoop_moved (h : At s done ev rest) (d : Dtree σ) {n : ℤ} (hn : 0 ≤ n)
    (discarded : Bool) :
    (s.moved d n discarded).toLoop =
      ⟨d, dropBytes n (ev :: rest), s.numRead - s.evp - n, true⟩ := by
  rw [Locals.toLoop, Locals.moved]
  simp only [h.held_eq, sub_sub]
  rw [h.evp_eq, dropBytes_add hn]

theorem At.handled (h : At s done ev rest) :
    Handled K s ev rest (round K cfg s) (loopBody K cfg s.toLoop) := by
  have hbody : loopBody K cfg s.toLoop =
      (processEvent K cfg s.d ev rest.head? s.firstTry >>= fun r =>
        if 0 < r.2.evLen ev rest then
          .ok ⟨r.1, dropBytes (r.2.evLen ev rest) (ev :: rest),
            s.numRead - s.evp - r.2.evLen ev rest, true⟩
        else secondRead K r.1 (ev :: rest) (s.numRead - s.evp)) := by
    rw [h.toLoop_eq, ← h.nextEvent_eq]
    rfl
  have hensures := @ensures_processEvent σ K cfg s.d rest.head? s.firstTry ev
  rw [hbody, h.round_eq, Inotify.handled]
  rcases hres : processEvent K cfg s.d ev rest.head? s.firstTry with e | ⟨d, ret⟩
  · exact .exit e rfl rfl
  rw [hres] at hensures
  obtain ⟨hhanging, hpair⟩ := hensures
  rw [ok_bind]
  cases ret with
  | one =>
    have hone : bytes [ev] = ev.size := by rw [bytes_cons, bytes_nil, add_zero]
    refine .moved d [] rest rfl ?_ ?_
    · rw [hone]
      exact if_pos ev.size_pos
    · rw [hone, h.toLoop_moved d ev.size_pos.le]
      exact if_pos ev.size_pos
  | pair =>
    cases rest with
    | nil => exact absurd rfl (hpair rfl)
    | cons next rest =>
      have hpos := bytes_pos (List.cons_ne_nil ev [next])
      refine .moved d [next] rest rfl ?_ ?_
      · exact if_pos hpos
      · rw [h.toLoop_moved d hpos.le]
        exact if_pos hpos
  | discard => exact .discarded d rfl (by rw [h.toLoop_moved d (by decide)]; rfl)
  | hanging =>
    obtain ⟨hnone, hfirst, hd⟩ := hhanging rfl
    obtain rfl := List.head?_eq_none_iff.mp hnone
    obtain rfl : d = s.d := hd
    exact .hanging rfl hfirst rfl rfl

/-- The size that the second `read()` is asked for is not changed by its conversion. -/
theorem asked_eq {n : ℤ} (hn : 0 < n) (hle : n ≤ INOTIFY_READ_BUF_LEN) :
    (INOTIFY_READ_BUF_LEN - n) % 2 ^ 64 = INOTIFY_READ_BUF_LEN - n := by
  have hlen : INOTIFY_READ_BUF_LEN = 27200 := rfl
  exact Int.emod_eq_of_lt (by omega) (by omega)

theorem secondary_outcome (hK : Bounded K) (h : At s done ev [])
    (hcount : s.numRead - s.evp = ev.size) (hle : ev.size ≤ INOTIFY_READ_BUF_LEN) :
    Outcome (secondary K s) := by
  have hbytes : bytes [ev] = ev.size := by rw [bytes_cons, bytes_nil, add_zero]
  have hshuffle : Holds (shuffle s.buf s.evp ev.size) [ev] := by
    have hholds := h.holds.shuffle
    rwa [← h.evp_eq, hbytes] at hholds
  have hok (timedOut : Bool) : (Observation.read (INOTIFY_READ_BUF_LEN - ev.size)
      (INOTIFY_READ_BUF_LEN - ev.size) timedOut).Ok := le_refl (INOTIFY_READ_BUF_LEN - ev.size)
  simp only [secondary, hcount, h.held_drop, hbytes, asked_eq ev.size_pos hle]
  rcases hread : K.read s.d.kernel (INOTIFY_READ_BUF_LEN - ev.size) with ⟨k, evs | _ | _⟩
  · have hfits := hK _ _ _ _ hread
    by_cases hnil : evs = []
    · exact .exit _ (if_pos hnil) (by simp [hok, Observation.timedOut])
    · refine .next _ (if_neg hnil) (by simp [hok, Observation.timedOut]) ⟨?_, ?_, ?_, ?_⟩
      · have hwritten := hshuffle.written evs
        rwa [hbytes] at hwritten
      · show ev.size + bytes evs = bytes ([ev] ++ evs)
        rw [bytes_append, hbytes]
      · show ev.size + bytes evs ≤ _
        omega
      · exact ⟨[], _, rfl, rfl⟩
  · refine .late _ rfl (by simp [hok]) ⟨_, List.mem_singleton_self _, rfl⟩ ev ?_
    exact ⟨hshuffle, rfl, rfl, rfl, hle, rfl, rfl⟩
  · exact .exit _ rfl (by simp [hok, Observation.timedOut])

theorem Exact.advance (h : Exact s) (evs : List Event) (hheld : s.held = done ++ (evs ++ rest))
    (hevp : s.evp = bytes done) (d : Dtree σ) : Exact (s.moved d (bytes evs) false) := by
  refine ⟨h.holds, h.numRead_eq, h.numRead_le, done ++ evs, rest, ?_, ?_⟩
  · show s.held = _
    rw [hheld, List.append_assoc]
  · show s.evp + _ = _
    rw [bytes_append, hevp]

theorem Exact.outcome (hK : Bounded K) (h : Exact s) (hlt : s.evp < s.numRead) :
    Outcome (round K cfg s) := by
  obtain ⟨done, ev, rest, hat, hcount⟩ := h.at hlt
  have hdone := bytes_nonneg done
  have hle := h.numRead_le
  have hevp := hat.evp_eq
  cases @At.handled σ K cfg s done rest ev hat with
  | exit e hr =>
    rw [hr]
    exact .exit e rfl (List.forall_mem_nil _)
  | moved d evs rest' hrest hr =>
    have hheld : s.held = done ++ (ev :: evs ++ rest') := by
      rw [hat.held_eq, hrest, List.cons_append]
    rw [hr]
    exact .next _ rfl (List.forall_mem_nil _) (h.advance (ev :: evs) hheld hevp d)
  | discarded d hr =>
    rw [hr]
    refine .skipped _ rfl rfl rfl ?_
    show s.numRead ≤ s.evp + INOTIFY_READ_BUF_LEN
    omega
  | hanging hrest hfirst hr =>
    subst hrest
    rw [bytes_cons, bytes_nil, add_zero] at hcount
    rw [hr]
    exact secondary_outcome hK hat hcount (by omega)

/-- After a timeout the loop ends with the next round. -/
theorem Late.ends (h : Late s ev) {s' : Locals σ} (hround : (round K cfg s).2 = .ok s') :
    s'.numRead ≤ s'.evp := by
  have hnum := h.numRead_eq
  have hevp := h.evp_eq
  have hle := h.size_le
  cases @At.handled σ K cfg s [] [] ev h.at with
  | exit e hr =>
    rw [hr] at hround
    cases hround
  | moved d evs rest' hrest hr =>
    rw [hr] at hround
    obtain rfl : _ = s' := Except.ok.inj hround
    have hpos := bytes_nonneg evs
    show s.numRead ≤ s.evp + bytes (ev :: evs)
    rw [bytes_cons]
    omega
  | discarded d hr =>
    rw [hr] at hround
    obtain rfl : _ = s' := Except.ok.inj hround
    show s.numRead ≤ s.evp + INOTIFY_READ_BUF_LEN
    omega
  | hanging hrest hfirst =>
    rw [h.firstTry] at hfirst
    cases hfirst

end Round

/-! ## Rounds over lists of events -/

section Refines
variable {s : Locals σ} {done rest : List Event} {ev : Event}

theorem secondary_refines (h : At s done ev rest) (hlt : s.evp < s.numRead)
    (hle : s.numRead - s.evp ≤ INOTIFY_READ_BUF_LEN) :
    (secondary K s).2.map Locals.toLoop =
      secondRead K s.d (ev :: rest) (s.numRead - s.evp) := by
  simp only [secondary, secondRead, h.held_drop, asked_eq (sub_pos.mpr hlt) hle]
  rcases K.read s.d.kernel (INOTIFY_READ_BUF_LEN - (s.numRead - s.evp)) with ⟨k, evs | _ | _⟩
  · by_cases hnil : evs = []
    · simp only [hnil, if_true]
      rfl
    · simp only [hnil, if_false, Except.map, Locals.toLoop, dropBytes_of_nonpos le_rfl, sub_zero]
  · simp only [Except.map, Locals.toLoop, dropBytes_of_nonpos le_rfl, sub_zero]
  · rfl

theorem At.refines (h : At s done ev rest) (hlt : s.evp < s.numRead)
    (hle : s.numRead ≤ INOTIFY_READ_BUF_LEN) :
    (round K cfg s).2.map Locals.toLoop = loopBody K cfg s.toLoop := by
  cases @At.handled σ K cfg s done rest ev h with
  | exit e hr hl =>
    rw [hr, hl]
    rfl
  | moved d evs rest' hrest hr hl =>
    rw [hr, hl]
    rfl
  | discarded d hr hl =>
    rw [hr, hl]
    rfl
  | hanging hrest hfirst hr hl =>
    have hdone := bytes_nonneg done
    have hevp := h.evp_eq
    subst hrest
    rw [hr, hl]
    exact secondary_refines h hlt (by omega)

/-- The states at the tests of the loop condition. -/
inductive BufInv (s : Locals σ) : Prop
  | exact (h : Exact s)
  | late (ev : Event) (h : Late s ev)
  | ended (h : s.numRead ≤ s.evp)

/-- A round of the loop of `processInotifyEvents()` is a round over a list of events. -/
theorem BufInv.round (hK : Bounded K) (h : BufInv s) (hlt : s.evp < s.numRead) :
    (round K cfg s).2.map Locals.toLoop = loopBody K cfg s.toLoop ∧
      ∀ s', (round K cfg s).2 = .ok s' → BufInv s' := by
  cases h with
  | exact h =>
    obtain ⟨done, ev, rest, hat, -⟩ := h.at hlt
    refine ⟨hat.refines hlt h.numRead_le, ?_⟩
    intro s' hs'
    cases @Exact.outcome σ K cfg s hK h hlt with
    | exit e he => cases he.symm.trans hs'
    | next s hs hok hexact => exact Except.ok.inj (hs.symm.trans hs') ▸ .exact hexact
    | skipped s hs hnone hdiscarded hend => exact Except.ok.inj (hs.symm.trans hs') ▸ .ended hend
    | late s hs hok htimeout ev hlate => exact Except.ok.inj (hs.symm.trans hs') ▸ .late ev hlate
  | late ev h =>
    have hle := h.size_le
    have hnum := h.numRead_eq
    exact ⟨h.at.refines hlt (by omega), fun s' hs' => .ended (h.ends hs')⟩
  | ended h => exact absurd hlt (not_lt.mpr h)

end Refines

theorem firstRead_eq (K : Kernel σ) (cfg : Config) (d : Dtree σ) :
    firstRead K cfg d = (loopStart K cfg d).map Locals.toLoop := by
  unfold firstRead loopStart
  rcases K.read d.kernel cfg.cnt with ⟨k, evs | _ | _⟩
  · by_cases hnil : evs = []
    · simp only [hnil, if_true]
      rfl
    · simp only [hnil, if_false, Except.map, Locals.toLoop, dropBytes_of_nonpos le_rfl, sub_zero]
  · rfl
  · rfl

theorem exact_loopStart (hK : Bounded K) (hcnt : cfg.cnt ≤ INOTIFY_READ_BUF_LEN) {d : Dtree σ}
    {s : Locals σ} (h : loopStart K cfg d = .ok s) : Exact s := by
  rw [loopStart] at h
  rcases hread : K.read d.kernel cfg.cnt with ⟨k, evs | _ | _⟩ <;> simp only [hread] at h
  · split_ifs at h
    obtain rfl := Except.ok.inj h
    have hfits := hK _ _ _ _ hread
    exact ⟨holds_written _ evs, rfl, hfits.trans hcnt, [], evs, rfl, rfl⟩
  all_goals cases h

/-- As `step`, with the buffer. -/
def Locals.step (K : Kernel σ) (cfg : Config) (s : Locals σ) :
    Option (Except (Exit σ) (Locals σ)) :=
  if s.evp < s.numRead then some (round K cfg s).2
  else if K.ready s.d.kernel then some (loopStart K cfg s.d)
  else none

/-- As `run`, with the buffer. -/
def Locals.run (K : Kernel σ) (cfg : Config) :
    ℕ → Locals σ → Option (Except (Exit σ) (Locals σ))
  | 0, _ => none
  | fuel + 1, s =>
    match s.step K cfg with
    | none => some (.ok s)
    | some (.error e) => some (.error e)
    | some (.ok s') => Locals.run K cfg fuel s'

section Run
variable {s : Locals σ} (hK : Bounded K) (hcnt : cfg.cnt ≤ INOTIFY_READ_BUF_LEN)
include hK hcnt

theorem BufInv.step (h : BufInv s) :
    (s.step K cfg).map (Except.map Locals.toLoop) = Inotify.step K cfg s.toLoop ∧
      ∀ s', s.step K cfg = some (.ok s') → BufInv s' := by
  have hpos : 0 < s.toLoop.numRead ↔ s.evp < s.numRead := sub_pos
  have hd : s.toLoop.d = s.d := rfl
  rw [Locals.step, Inotify.step]
  by_cases hlt : s.evp < s.numRead
  · obtain ⟨hround, hinv⟩ := @BufInv.round σ K cfg s hK h hlt
    rw [if_pos hlt, if_pos (hpos.mpr hlt), Option.map_some, hround]
    exact ⟨rfl, fun s' hs' => hinv s' (Option.some.inj hs')⟩
  · rw [if_neg hlt, if_neg (mt hpos.mp hlt), hd]
    by_cases hready : K.ready s.d.kernel
    · rw [if_pos hready, if_pos hready, Option.map_some, ← firstRead_eq]
      exact ⟨rfl, fun s' hs' => .exact (exact_loopStart hK hcnt (Option.some.inj hs'))⟩
    · rw [if_neg hready, if_neg hready]
      exact ⟨rfl, fun s' hs' => by cases hs'⟩

/-- The program with its buffer does what the program over lists of events does. -/
theorem BufInv.run (h : BufInv s) (fuel : ℕ) :
    (Locals.run K cfg fuel s).map (Except.map Locals.toLoop) = Inotify.run K cfg fuel s.toLoop := by
  induction fuel generalizing s with
  | zero => rfl
  | succ fuel ih =>
    obtain ⟨hstep, hinv⟩ := BufInv.step hK hcnt h
    rw [Locals.run, Inotify.run, ← hstep]
    rcases hs : s.step K cfg with _ | e | s'
    · rfl
    · rfl
    · exact ih (hinv s' hs)

end Run

/-! ## Whole runs -/

theorem observedLoop_of_ended {s : Locals σ} (h : s.numRead ≤ s.evp) {fuel : ℕ} {o : Observation}
    (ho : o ∈ observedLoop K cfg fuel s) : o = .test s.buf s.numRead s.evp s.held s.discarded := by
  cases fuel with
  | zero => cases ho
  | succ fuel =>
    rcases mem_observedLoop_succ.mp ho with heq | ⟨hlt, -⟩
    · exact heq
    · exact absurd hlt (not_lt.mpr h)

section Runs
variable {s : Locals σ} (hK : Bounded K)
include hK

/-- An observation is as it should be, or it is made after the first round, or that round waits for
more events in vain. -/
theorem Exact.observed_cases (h : Exact s) {fuel : ℕ} {o : Observation}
    (ho : o ∈ observedLoop K cfg (fuel + 1) s) :
    o.Ok ∧ o.timedOut = false ∨ s.evp < s.numRead ∧ ∃ s', (round K cfg s).2 = .ok s' ∧
      (Exact s' ∧ o ∈ observedLoop K cfg fuel s' ∨
        ∃ ev, Late s' ev ∧ ∃ o ∈ (round K cfg s).1, o.timedOut = true) := by
  rcases mem_observedLoop_succ.mp ho with rfl | ⟨hlt, hround⟩
  · exact .inl ⟨.inr h.account, rfl⟩
  cases @Exact.outcome σ K cfg s hK h hlt with
  | exit e he hok =>
    rcases hround with ho | ⟨s', hs', -⟩
    · exact .inl (hok o ho)
    · cases he.symm.trans hs'
  | next s' hs' hok hexact =>
    rcases hround with ho | ⟨s'', hs'', ho⟩
    · exact .inl (hok o ho)
    · obtain rfl := Except.ok.inj (hs'.symm.trans hs'')
      exact .inr ⟨hlt, s', hs', .inl ⟨hexact, ho⟩⟩
  | skipped s' hs' hnone hdiscarded hend =>
    rcases hround with ho | ⟨s'', hs'', ho⟩
    · rw [hnone] at ho
      cases ho
    · obtain rfl := Except.ok.inj (hs'.symm.trans hs'')
      rw [observedLoop_of_ended hend ho]
      exact .inl ⟨.inl hdiscarded, rfl⟩
  | late s' hs' hok htimeout ev hlate =>
    exact .inr ⟨hlt, s', hs', .inr ⟨ev, hlate, htimeout⟩⟩

theorem Exact.observed_ok (h : Exact s) (fuel : ℕ)
    (htime : ∀ o ∈ observedLoop K cfg fuel s, o.timedOut = false) :
    ∀ o ∈ observedLoop K cfg fuel s, o.Ok := by
  induction fuel generalizing s with
  | zero => exact List.forall_mem_nil _
  | succ fuel ih =>
    intro o ho
    rcases h.observed_cases hK ho with hok | ⟨hlt, s', hs', ⟨hexact, ho⟩ | ⟨ev, -, o, ho, hout⟩⟩
    · exact hok.1
    · refine ih hexact (fun o ho => htime o ?_) o ho
      exact mem_observedLoop_succ.mpr (.inr ⟨hlt, .inr ⟨s', hs', ho⟩⟩)
    · have hin := htime o (mem_observedLoop_succ.mpr (.inr ⟨hlt, .inl ho⟩))
      cases hin.symm.trans hout

/-- A timeout is seen in the count at the next test. -/
theorem Exact.observed_not_ok (h : Exact s) {fuel : ℕ} {o : Observation}
    (ho : o ∈ observedLoop K cfg fuel s) (htime : o.timedOut = true) :
    ∃ fuel, ∃ o ∈ observedLoop K cfg fuel s, ¬ o.Ok := by
  induction fuel generalizing s with
  | zero => cases ho
  | succ fuel ih =>
    rcases h.observed_cases hK ho with hok | ⟨hlt, s', hs', ⟨hexact, ho⟩ | ⟨ev, hlate, -⟩⟩
    · cases hok.2.symm.trans htime
    · obtain ⟨fuel, o, ho, hnot⟩ := ih hexact ho
      exact ⟨fuel + 1, o, mem_observedLoop_succ.mpr (.inr ⟨hlt, .inr ⟨s', hs', ho⟩⟩), hnot⟩
    · refine ⟨2, .test s'.buf s'.numRead s'.evp s'.held s'.discarded, ?_, ?_⟩
      · exact mem_observedLoop_succ.mpr
          (.inr ⟨hlt, .inr ⟨s', hs', mem_observedLoop_succ.mpr (.inl rfl)⟩⟩)
      · rintro (hdiscarded | haccount)
        · cases hdiscarded.symm.trans hlate.discarded
        · exact hlate.not_account haccount

end Runs

theorem mem_observed {fuel : ℕ} {d : Dtree σ} {o : Observation} :
    o ∈ observed K cfg fuel d ↔ o = .read cfg.cnt INOTIFY_READ_BUF_LEN false ∨
      ∃ s, loopStart K cfg d = .ok s ∧ o ∈ observedLoop K cfg fuel s := by
  rw [observed, List.mem_cons]
  rcases loopStart K cfg d with e | s <;> simp

theorem Config.cnt_le_iff :
    cfg.cnt ≤ INOTIFY_READ_BUF_LEN ↔ cfg.readBufferSize ≤ INOTIFY_READ_BUF_LEN := by
  rw [Config.cnt]
  split_ifs with hpos
  · exact Iff.rfl
  · have hlen : INOTIFY_READ_BUF_LEN = 27200 := rfl
    exact iff_of_true le_rfl (by omega)

theorem bounded_chunked (K : Kernel σ) : Bounded (chunked K) := by
  intro k n k' evs hread
  rcases k with ⟨base, _ | ⟨c, cs⟩, misfit⟩
  · cases hread
  · simp only [chunked] at hread
    split_ifs at hread with hfits
    · cases hread
      exact hfits.1
    · cases hread

/-- The count and that of the events, as they are at a test of the loop condition. -/
def Observation.counts : Observation → Option (ℤ × ℤ)
  | .read _ _ _ => none
  | .test _ numRead _ held discarded => if discarded then none else some (numRead, bytes held)

theorem Observation.Ok.counts {o : Observation} (h : o.Ok) {n m : ℤ}
    (hcounts : o.counts = some (n, m)) : n = m := by
  cases o with
  | read asked free timedOut => cases hcounts
  | test buf numRead evp held discarded =>
    rcases h with rfl | haccount
    · cases hcounts
    · rw [Observation.counts] at hcounts
      split_ifs at hcounts
      cases hcounts
      exact haccount.numRead_eq

/-- At every test of the loop condition `numRead` counts the bytes of the events in the buffer, and
every `read()` fits in what is free, if and only if the size given with `-b` is at most that of the
buffer and no second `read()` times out. -/
theorem numRead_accounted_iff (K : Kernel σ) (hK : Bounded K) (cfg : Config) (d : Dtree σ) :
    (∀ fuel, ∀ o ∈ observed K cfg fuel d, o.Ok) ↔
      cfg.readBufferSize ≤ INOTIFY_READ_BUF_LEN ∧
        ∀ fuel, ∀ o ∈ observed K cfg fuel d, o.timedOut = false := by
  rw [← Config.cnt_le_iff]
  constructor
  · intro hok
    have hcnt : cfg.cnt ≤ INOTIFY_READ_BUF_LEN := hok 0 _ (mem_observed.mpr (.inl rfl))
    refine ⟨hcnt, ?_⟩
    intro fuel o ho
    rcases mem_observed.mp ho with rfl | ⟨s, hstart, ho⟩
    · rfl
    by_contra htime
    obtain ⟨fuel, o, ho, hnot⟩ := (exact_loopStart hK hcnt hstart).observed_not_ok hK ho
      (Bool.eq_true_of_not_eq_false htime)
    exact hnot (hok fuel o (mem_observed.mpr (.inr ⟨s, hstart, ho⟩)))
  · rintro ⟨hcnt, htime⟩ fuel o ho
    rcases mem_observed.mp ho with rfl | ⟨s, hstart, ho⟩
    · exact hcnt
    refine (exact_loopStart hK hcnt hstart).observed_ok hK fuel ?_ o ho
    exact fun o ho => htime fuel o (mem_observed.mpr (.inr ⟨s, hstart, ho⟩))

/-- The call handles the events of a rename, both of which are in the buffer. -/
theorem numRead_accounted_rename : Bounded (chunked counting) ∧
    ∀ fuel, ∀ o ∈ observed (chunked counting) plain fuel
      (withChunks Chunks.watched [[Chunks.movedFromA, Chunks.movedToB]]), o.Ok := by
  have hK := bounded_chunked counting
  have hround : (match loopStart (chunked counting) plain
      (withChunks Chunks.watched [[Chunks.movedFromA, Chunks.movedToB]]) with
      | .error _ => true
      | .ok s => (round (chunked counting) plain s).1.isEmpty &&
        match (round (chunked counting) plain s).2 with
        | .error _ => true
        | .ok s' => decide (s'.numRead ≤ s'.evp)) = true := by decide +kernel
  refine ⟨hK, (numRead_accounted_iff (chunked counting) hK plain _).mpr ⟨by decide, ?_⟩⟩
  intro fuel o ho
  rcases mem_observed.mp ho with rfl | ⟨s, hstart, ho⟩
  · rfl
  rw [hstart] at hround
  obtain ⟨hnone, hend⟩ := (Bool.and_eq_true _ _).mp hround
  cases fuel with
  | zero => cases ho
  | succ fuel =>
    rcases mem_observedLoop_succ.mp ho with rfl | ⟨-, ho | ⟨s', hs', ho⟩⟩
    · rfl
    · rw [List.isEmpty_iff.mp hnone] at ho
      cases ho
    · rw [hs'] at hend
      rw [observedLoop_of_ended (of_decide_eq_true hend) ho]
      rfl

/-- A directory is moved out of the tree, and no event follows within the timeout; or the size given
with `-b` is larger than the buffer. -/
theorem numRead_timeout :
    (observed (chunked counting) plain 2
      (withChunks Chunks.watched [[Chunks.movedFromA]])).filterMap Observation.counts =
        [(32, 32), (31, 32)] ∧
    (¬ ∀ fuel, ∀ o ∈ observed (chunked counting) plain fuel
      (withChunks Chunks.watched [[Chunks.movedFromA]]), o.Ok) ∧
    ¬ ∀ fuel, ∀ o ∈ observed (chunked counting) { plain with readBufferSize := 30000 } fuel
      (withChunks Chunks.watched [[Chunks.movedFromA, Chunks.movedToB]]), o.Ok := by
  have hcounts : (observed (chunked counting) plain 2
      (withChunks Chunks.watched [[Chunks.movedFromA]])).filterMap Observation.counts =
        [(32, 32), (31, 32)] := by decide +kernel
  refine ⟨hcounts, ?_, ?_⟩
  · intro hok
    have hmem : ((31, 32) : ℤ × ℤ) ∈ (observed (chunked counting) plain 2
        (withChunks Chunks.watched [[Chunks.movedFromA]])).filterMap Observation.counts := by
      rw [hcounts]
      decide
    obtain ⟨o, ho, hmiss⟩ := List.mem_filterMap.mp hmem
    have hsame := (hok 2 o ho).counts hmiss
    omega
  · intro hok
    have hfirst := hok 0 _ (mem_observed.mpr (.inl rfl))
    exact absurd hfirst (by decide : ¬ (30000 : ℤ) ≤ INOTIFY_READ_BUF_LEN)

end Tlpi.Inotify
