import Tlpi.Lib.Machine
import Mathlib.Tactic

/-! `sendfile()` in terms of `read()`, `write()` and `lseek()`. The loop is a machine: each of its
steps is one iteration, given by what `read()` and `write()` return in it. -/

namespace Tlpi.Sockets.Sendfile
open Lib

def BUF_SIZE : ℕ := 8192

/-- The content of `in_fd` and its file offset, what has been written to `out_fd`, and `*offset`
(`none` if `offset` is `NULL`). -/
structure Sys where
  data : List UInt8
  pos : ℕ
  out : List UInt8
  offset : Option ℤ
  deriving DecidableEq

/-- `lseek(in_fd, off, SEEK_SET)`, which fails for a negative offset. -/
def Sys.lseek (s : Sys) (off : ℤ) : Option Sys :=
  if off < 0 then none else some { s with pos := off.toNat }

theorem Sys.lseek_natCast (s : Sys) (n : ℕ) : s.lseek n = some { s with pos := n } :=
  if_neg (Int.natCast_nonneg n).not_gt

def Sys.rest (s : Sys) : List UInt8 := s.data.drop s.pos

/-- The values that `read()` and `write()` return in one iteration; `-1` is an error, and if
`numRead` is 0 there is no `write()`. -/
structure Turn where
  numRead : ℤ
  numSent : ℤ
  deriving DecidableEq

/-- The values of `read()` when `toRead` bytes are asked for and `left` bytes are left. -/
def ReadReturns (toRead left : ℕ) (ret : ℤ) : Prop :=
  ret = -1 ∨ (ret = 0 ∧ left = 0) ∨ (0 < ret ∧ ret ≤ toRead ∧ ret ≤ left)

instance (toRead left : ℕ) (ret : ℤ) : Decidable (ReadReturns toRead left ret) :=
  inferInstanceAs (Decidable (_ ∨ _))

def WriteReturns (given ret : ℤ) : Prop := -1 ≤ ret ∧ ret ≤ given

instance (given ret : ℤ) : Decidable (WriteReturns given ret) :=
  inferInstanceAs (Decidable (_ ∧ _))

structure Locals where
  sys : Sys
  orig : ℕ
  count : ℕ
  totSent : ℕ
  deriving DecidableEq

inductive State
  | looping (v : Locals)
  | returned (ret : ℤ) (s : Sys)
  | fatal
  deriving DecidableEq

/-- The code after the loop. -/
def finish (v : Locals) : State :=
  match v.sys.offset with
  | none => .returned v.totSent v.sys
  | some _ =>
    let s := { v.sys with offset := some (v.sys.pos : ℤ) }
    match s.lseek v.orig with
    | none => .returned (-1) s
    | some s => .returned v.totSent s

/-- The test of the loop. -/
def whileCount (v : Locals) : State := if v.count > 0 then .looping v else finish v

def iteration (v : Locals) (t : Turn) : Option State :=
  let toRead := min BUF_SIZE v.count
  if ReadReturns toRead v.sys.rest.length t.numRead then
    if t.numRead = -1 then some (.returned (-1) v.sys)
    else if t.numRead = 0 then some (finish v)
    else
      let buf := v.sys.rest.take t.numRead.toNat
      let s := { v.sys with pos := v.sys.pos + t.numRead.toNat }
      if WriteReturns t.numRead t.numSent then
        if t.numSent = -1 then some (.returned (-1) s)
        else if t.numSent = 0 then some .fatal
        else
          some (whileCount
            { v with
              sys := { s with out := s.out ++ buf.take t.numSent.toNat }
              count := v.count - t.numSent.toNat
              totSent := v.totSent + t.numSent.toNat })
      else none
  else none

/-- The code before the loop. -/
def start (s : Sys) (count : ℕ) : State :=
  match s.offset with
  | none => whileCount ⟨s, 0, count, 0⟩
  | some off =>
    match s.lseek off with
    | none => .returned (-1) s
    | some s' => whileCount ⟨s', s.pos, count, 0⟩

def sendfile (s : Sys) (count : ℕ) : Machine State Turn where
  init st := st = start s count
  step st t :=
    match st with
    | .looping v => iteration v t
    | _ => none

/-- The state of a call after some iterations, `none` if the system calls cannot return so. -/
def run (s : Sys) (count : ℕ) (turns : List Turn) : Option State :=
  (sendfile s count).exec (start s count) turns

/-! ## One iteration -/

/-- No error, and `write()` transfers something. -/
def Turn.ErrorFree (t : Turn) : Prop := 0 ≤ t.numRead ∧ (0 < t.numRead → 1 ≤ t.numSent)

instance (t : Turn) : Decidable t.ErrorFree := inferInstanceAs (Decidable (_ ∧ _))

/-- `write()` transfers all that `read()` has read. -/
def Turn.Full (t : Turn) : Prop := 0 < t.numRead → t.numSent = t.numRead

instance (t : Turn) : Decidable t.Full := inferInstanceAs (Decidable (_ → _))

/-- The variables after `r` bytes have been read and `w` of them sent. -/
def Locals.moved (v : Locals) (r w : ℕ) : Locals :=
  { v with
    sys := { v.sys with
      pos := v.sys.pos + r
      out := v.sys.out ++ (v.sys.rest.take r).take w }
    count := v.count - w
    totSent := v.totSent + w }

/-- An iteration without errors either finds the end of the file, or moves some bytes. -/
theorem iteration_cases {v : Locals} {t : Turn} {st : State} (ht : t.ErrorFree)
    (h : iteration v t = some st) :
    (t.numRead = 0 ∧ v.sys.rest = [] ∧ st = finish v) ∨
    ∃ r w : ℕ, t = ⟨r, w⟩ ∧ 1 ≤ w ∧ w ≤ r ∧ r ≤ v.count ∧ r ≤ v.sys.rest.length ∧
      st = whileCount (v.moved r w) := by
  obtain ⟨n, m⟩ := t
  obtain ⟨hn, hm⟩ := ht
  dsimp only at hn hm
  lift n to ℕ using hn
  unfold iteration at h
  dsimp only at h
  obtain ⟨hread, h⟩ := Option.ite_none_right_eq_some.mp h
  rw [if_neg (by omega)] at h
  by_cases hn0 : (n : ℤ) = 0
  · left
    rw [if_pos hn0] at h
    have hleft : v.sys.rest.length = 0 := by
      rcases hread with hread | ⟨-, hread⟩ | hread
      · omega
      · exact hread
      · omega
    exact ⟨hn0, List.length_eq_zero_iff.mp hleft, (Option.some.inj h).symm⟩
  · right
    have hm1 := hm (by omega)
    lift m to ℕ using (by omega)
    rw [if_neg hn0] at h
    obtain ⟨⟨-, hwrite⟩, h⟩ := Option.ite_none_right_eq_some.mp h
    rw [if_neg (by omega), if_neg (by omega)] at h
    refine ⟨n, m, rfl, by omega, by omega, ?_, ?_, (Option.some.inj h).symm⟩
    · rcases hread with hread | hread | hread <;> omega
    · rcases hread with hread | hread | hread <;> omega

/-- As long as the loop goes on, the system calls can return something without an error. -/
theorem iteration_enabled (v : Locals) (hv : 0 < v.count) :
    ∃ t : Turn, t.ErrorFree ∧ (iteration v t).isSome := by
  cases hrest : v.sys.rest with
  | nil =>
    refine ⟨⟨0, 0⟩, by decide, ?_⟩
    have hread : ReadReturns (min BUF_SIZE v.count) v.sys.rest.length 0 := by
      rw [hrest]
      exact .inr (.inl ⟨rfl, rfl⟩)
    unfold iteration
    dsimp only
    rw [if_pos hread]
    rfl
  | cons b bs =>
    refine ⟨⟨1, 1⟩, by decide, ?_⟩
    have hread : ReadReturns (min BUF_SIZE v.count) v.sys.rest.length 1 := by
      refine .inr (.inr ⟨Int.one_pos, ?_, ?_⟩)
      · rw [Nat.one_le_cast, le_min_iff]
        exact ⟨by decide, hv⟩
      · rw [hrest, Nat.one_le_cast]
        exact Nat.succ_pos _
    unfold iteration
    dsimp only
    rw [if_pos hread]
    rfl

/-! ## The loop -/

/-- In some iterations `r` bytes have been read and `w` sent. -/
structure Copied (v : Locals) (turns : List Turn) (r w : ℕ) (v' : Locals) : Prop where
  data : v'.sys.data = v.sys.data
  offset : v'.sys.offset = v.sys.offset
  orig : v'.orig = v.orig
  pos : v'.sys.pos = v.sys.pos + r
  totSent : v'.totSent = v.totSent + w
  count : v'.count + w = v.count
  le : w ≤ r
  full : (∀ t ∈ turns, t.Full) ↔ w = r
  out : w = r → r ≤ v.sys.rest.length ∧ v'.sys.out = v.sys.out ++ v.sys.rest.take r

theorem Copied.none {v : Locals} {turns : List Turn} (h : ∀ t ∈ turns, t.Full) :
    Copied v turns 0 0 v where
  data := rfl
  offset := rfl
  orig := rfl
  pos := rfl
  totSent := rfl
  count := rfl
  le := le_rfl
  full := iff_of_true h rfl
  out _ := ⟨Nat.zero_le _, (List.append_nil _).symm⟩

theorem rest_moved (v : Locals) (r w : ℕ) : (v.moved r w).sys.rest = v.sys.rest.drop r :=
  (List.drop_drop ..).symm

/-- What is sent in all can only be as much as what is read if nothing is lost in any iteration. -/
theorem Copied.cons {v v' : Locals} {turns : List Turn} {r w r' w' : ℕ} (hwr : w ≤ r)
    (hr : r ≤ v.count) (hrest : r ≤ v.sys.rest.length) (h0 : 1 ≤ w)
    (h : Copied (v.moved r w) turns r' w' v') :
    Copied v (⟨r, w⟩ :: turns) (r + r') (w + w') v' where
  data := h.data
  offset := h.offset
  orig := h.orig
  pos := h.pos.trans (Nat.add_assoc ..)
  totSent := h.totSent.trans (Nat.add_assoc ..)
  count := by
    have hcount : v'.count + w' = v.count - w := h.count
    omega
  le := Nat.add_le_add hwr h.le
  full := by
    have hle := h.le
    have hone : Turn.Full ⟨r, w⟩ ↔ w = r := by
      unfold Turn.Full
      dsimp only
      omega
    rw [List.forall_mem_cons, hone, h.full]
    omega
  out heq := by
    have hle := h.le
    obtain rfl : w = r := by omega
    obtain ⟨hlen, hout⟩ := h.out (by omega)
    rw [rest_moved, List.length_drop] at hlen
    rw [rest_moved] at hout
    refine ⟨by omega, hout.trans ?_⟩
    show (v.sys.out ++ (v.sys.rest.take w).take w) ++ _ = _
    rw [List.take_take, min_self, List.append_assoc, List.take_add]

theorem exec_returned {s s' : Sys} {count : ℕ} {ret : ℤ} {turns : List Turn} {st : State}
    (h : (sendfile s count).exec (.returned ret s') turns = some st) :
    turns = [] ∧ st = .returned ret s' := by
  cases turns with
  | nil => exact ⟨rfl, (Option.some.inj h).symm⟩
  | cons t turns => simp [Machine.execUnder, sendfile] at h

theorem finish_returned (v : Locals) : ∃ s, finish v = .returned v.totSent s := by
  unfold finish
  split
  · exact ⟨_, rfl⟩
  · dsimp only
    rw [Sys.lseek_natCast]
    exact ⟨_, rfl⟩

theorem exec_finish {s : Sys} {count : ℕ} {v : Locals} {turns : List Turn} {st : State}
    (h : (sendfile s count).exec (finish v) turns = some st) : turns = [] ∧ st = finish v := by
  obtain ⟨s', hret⟩ := finish_returned v
  rw [hret] at h ⊢
  exact exec_returned h

/-- Induction on the iterations. -/
theorem exec_whileCount {s : Sys} {count : ℕ} {v : Locals} {turns : List Turn} {st : State}
    (hfree : ∀ t ∈ turns, t.ErrorFree)
    (h : (sendfile s count).exec (whileCount v) turns = some st) :
    ∃ r w v', Copied v turns r w v' ∧
      ((st = .looping v' ∧ 0 < v'.count ∧ turns.length ≤ w) ∨ st = finish v') := by
  induction turns generalizing v with
  | nil =>
    obtain rfl : whileCount v = st := Option.some.inj h
    refine ⟨0, 0, v, .none (by simp), ?_⟩
    unfold whileCount
    by_cases hv : v.count > 0
    · exact .inl ⟨if_pos hv, hv, le_rfl⟩
    · exact .inr (if_neg hv)
  | cons t turns ih =>
    obtain ⟨ht, hturns⟩ := List.forall_mem_cons.mp hfree
    by_cases hv : v.count > 0
    · rw [whileCount, if_pos hv] at h
      simp only [Machine.execUnder, if_true] at h
      obtain ⟨st', hst, hexec⟩ := Option.bind_eq_some_iff.mp h
      rcases iteration_cases ht hst with ⟨h0, -, rfl⟩ | ⟨r, w, rfl, hw, hwr, hr, hrest, rfl⟩
      · obtain ⟨rfl, rfl⟩ := exec_finish hexec
        refine ⟨0, 0, v, .none ?_, .inr rfl⟩
        intro u hu hpos
        rw [List.mem_singleton.mp hu, h0] at hpos
        exact absurd hpos (lt_irrefl 0)
      · obtain ⟨r', w', v', hcopied, hst'⟩ := ih hturns hexec
        refine ⟨r + r', w + w', v', hcopied.cons hwr hr hrest hw, ?_⟩
        rcases hst' with ⟨hlooping, hcount, hlen⟩ | hfinish
        · refine .inl ⟨hlooping, hcount, ?_⟩
          rw [List.length_cons]
          omega
        · exact .inr hfinish
    · rw [whileCount, if_neg hv] at h
      cases (exec_finish h).1

/-! ## The whole call -/

/-- Where the data is taken from. -/
def Sys.startsAt (s : Sys) : ℕ := s.offset.elim s.pos Int.toNat

/-- What a call that returns `r` is to have done. -/
structure Faithful (s : Sys) (r : ℕ) (s' : Sys) : Prop where
  le : r ≤ (s.data.drop s.startsAt).length
  out : s'.out = s.out ++ (s.data.drop s.startsAt).take r
  offset : s'.offset = s.offset.map (· + (r : ℤ))
  null : s.offset = none → s'.pos = s.pos + r
  nonnull : s.offset ≠ none → s'.pos = s.pos

def entered (s : Sys) (count : ℕ) : Locals :=
  ⟨{ s with pos := s.startsAt }, s.offset.elim 0 fun _ => s.pos, count, 0⟩

theorem start_eq {s : Sys} (hoff : ∀ off ∈ s.offset, 0 ≤ off) (count : ℕ) :
    start s count = whileCount (entered s count) := by
  obtain ⟨data, pos, out, offset⟩ := s
  cases offset with
  | none => rfl
  | some off =>
    have hoff : ¬ off < 0 := not_lt.mpr (hoff off rfl)
    unfold start Sys.lseek
    dsimp only
    rw [if_neg hoff]
    rfl

section Finish

variable {s : Sys} {count : ℕ} {turns : List Turn} {r w : ℕ} {v : Locals}
  (h : Copied (entered s count) turns r w v)
include h

theorem finish_null (hs : s.offset = none) :
    ∃ s', finish v = .returned w s' ∧ (Faithful s w s' ↔ w = r) := by
  have htot : v.totSent = w := h.totSent.trans (Nat.zero_add w)
  have hv : v.sys.offset = none := h.offset.trans hs
  have hpos : v.sys.pos = s.pos + r := by
    rw [h.pos]
    simp [entered, Sys.startsAt, hs]
  refine ⟨v.sys, ?_, ?_⟩
  · rw [finish, hv, htot]
  constructor
  · intro hf
    have := hf.null hs
    omega
  · rintro rfl
    obtain ⟨hle, hout⟩ := h.out rfl
    exact ⟨hle, hout, by rw [hv, hs]; rfl, fun _ => hpos, fun hne => absurd hs hne⟩

theorem finish_nonnull {off : ℤ} (hs : s.offset = some off) (hoff : 0 ≤ off) :
    ∃ s', finish v = .returned w s' ∧ (Faithful s w s' ↔ w = r) := by
  have htot : v.totSent = w := h.totSent.trans (Nat.zero_add w)
  have hv : v.sys.offset = some off := h.offset.trans hs
  have horig : v.orig = s.pos := by
    rw [h.orig]
    simp [entered, hs]
  have hpos : (v.sys.pos : ℤ) = off + r := by
    rw [h.pos]
    simp [entered, Sys.startsAt, hs, hoff]
  refine ⟨{ v.sys with offset := some (v.sys.pos : ℤ), pos := s.pos }, ?_, ?_⟩
  · rw [finish, hv]
    dsimp only
    rw [Sys.lseek_natCast, htot, horig]
  constructor
  · intro hf
    have hinc := hf.offset
    rw [hs, hpos] at hinc
    have : off + (r : ℤ) = off + w := Option.some.inj hinc
    omega
  · rintro rfl
    obtain ⟨hle, hout⟩ := h.out rfl
    refine ⟨hle, hout, ?_, fun hn => ?_, fun _ => rfl⟩
    · rw [hs, hpos]
      rfl
    · rw [hs] at hn
      cases hn

/-- The offsets tell how much has been read, so that they agree with the count exactly if nothing
is lost. -/
theorem finish_faithful_iff (hoff : ∀ off ∈ s.offset, 0 ≤ off) :
    ∃ s', finish v = .returned w s' ∧ (Faithful s w s' ↔ ∀ t ∈ turns, t.Full) := by
  rw [h.full]
  cases hs : s.offset with
  | none => exact finish_null h hs
  | some off => exact finish_nonnull h hs (hoff off hs)

end Finish

theorem run_negative {s : Sys} {off : ℤ} (hs : s.offset = some off) (hoff : off < 0) {count : ℕ}
    {turns : List Turn} {st : State} (h : run s count turns = some st) :
    st = .returned (-1) s := by
  have hstart : start s count = .returned (-1) s := by
    unfold start Sys.lseek
    rw [hs]
    dsimp only
    rw [if_pos hoff]
  rw [run, hstart] at h
  exact (exec_returned h).2

/-- A call where no `read()` or `write()` fails goes on for less than `count` iterations or returns,
and it has copied faithfully exactly if every `write()` has transferred all that was read. With a
negative `*offset` it fails and has done nothing. -/
theorem sendfile_faithful_iff (s : Sys) (count : ℕ) (turns : List Turn)
    (hfree : ∀ t ∈ turns, t.ErrorFree) (st : State) (hrun : run s count turns = some st) :
    (∃ v, st = .looping v ∧ turns.length < count ∧
      ∃ t : Turn, t.ErrorFree ∧ (run s count (turns ++ [t])).isSome) ∨
    (∃ (r : ℕ) (s' : Sys), st = .returned r s' ∧ (Faithful s r s' ↔ ∀ t ∈ turns, t.Full)) ∨
    ∃ off, s.offset = some off ∧ off < 0 ∧ st = .returned (-1) s := by
  by_cases hneg : ∃ off ∈ s.offset, off < 0
  · obtain ⟨off, hs, hoff⟩ := hneg
    exact .inr (.inr ⟨off, hs, hoff, run_negative hs hoff hrun⟩)
  have hoff : ∀ off ∈ s.offset, 0 ≤ off := by
    intro off hs
    exact not_lt.mp fun h => hneg ⟨off, hs, h⟩
  have hexec := hrun
  rw [run, start_eq hoff] at hexec
  obtain ⟨r, w, v, hcopied, ⟨rfl, hv, hlen⟩ | rfl⟩ := exec_whileCount hfree hexec
  · have hcount : v.count + w = count := hcopied.count
    obtain ⟨t, ht, hsome⟩ := iteration_enabled v hv
    refine .inl ⟨v, rfl, by omega, t, ht, ?_⟩
    rw [run, Machine.exec_snoc hrun]
    exact hsome
  · obtain ⟨s', hret, hiff⟩ := finish_faithful_iff hcopied hoff
    exact .inr (.inl ⟨w, s', hret, hiff⟩)

/-- Six bytes, of which the first four are to be sent. -/
def sixBytes (offset : Option ℤ) : Sys := ⟨[0, 1, 2, 3, 4, 5], 1, [], offset⟩

theorem sendfile_faithful_iff_full :
    run (sixBytes (some 0)) 4 [⟨3, 3⟩, ⟨1, 1⟩] =
      some (.returned 4 ⟨[0, 1, 2, 3, 4, 5], 1, [0, 1, 2, 3], some 4⟩) ∧
    Faithful (sixBytes (some 0)) 4 ⟨[0, 1, 2, 3, 4, 5], 1, [0, 1, 2, 3], some 4⟩ := by
  have hrun : run (sixBytes (some 0)) 4 [⟨3, 3⟩, ⟨1, 1⟩] =
      some (.returned 4 ⟨[0, 1, 2, 3, 4, 5], 1, [0, 1, 2, 3], some 4⟩) := by decide
  refine ⟨hrun, ?_⟩
  rcases sendfile_faithful_iff _ 4 [⟨3, 3⟩, ⟨1, 1⟩] (by decide) _ hrun with
    ⟨v, hv, -⟩ | ⟨r, s', hret, hiff⟩ | ⟨off, -, -, hret⟩
  · cases hv
  · obtain ⟨hr, rfl⟩ := State.returned.inj hret
    obtain rfl : r = 4 := by omega
    exact hiff.mpr (by decide)
  · exact absurd (State.returned.inj hret).1 (by decide)

/-- The first `write()` transfers two of four bytes; the other two are never sent. -/
theorem sendfile_loses_bytes :
    (∀ t ∈ [(⟨4, 2⟩ : Turn), ⟨2, 2⟩], t.ErrorFree) ∧
    run (sixBytes (some 0)) 4 [⟨4, 2⟩, ⟨2, 2⟩] =
      some (.returned 4 ⟨[0, 1, 2, 3, 4, 5], 1, [0, 1, 4, 5], some 6⟩) ∧
    ¬ Faithful (sixBytes (some 0)) 4 ⟨[0, 1, 2, 3, 4, 5], 1, [0, 1, 4, 5], some 6⟩ := by
  refine ⟨by decide, by decide, ?_⟩
  intro h
  exact absurd h.out (by decide)

/-! ## Failures -/

/-- What the calls of `read()` that did not fail have returned. -/
def bytesRead (turns : List Turn) : ℕ := (turns.map fun t => t.numRead.toNat).sum

/-- The file offset is moved by what has been read, also in an iteration that fails. -/
theorem iteration_pos {v : Locals} {t : Turn} {st : State} (h : iteration v t = some st) :
    (∃ s', st = .returned (-1) s' ∧ s'.pos = v.sys.pos + t.numRead.toNat) ∨ st = finish v ∨
      st = .fatal ∨ ∃ v', st = whileCount v' ∧ v'.sys.pos = v.sys.pos + t.numRead.toNat := by
  unfold iteration at h
  dsimp only at h
  obtain ⟨-, h⟩ := Option.ite_none_right_eq_some.mp h
  by_cases hread : t.numRead = -1
  · rw [if_pos hread, Option.some.injEq] at h
    exact .inl ⟨v.sys, h.symm, by rw [hread]; rfl⟩
  rw [if_neg hread] at h
  by_cases heof : t.numRead = 0
  · rw [if_pos heof, Option.some.injEq] at h
    exact .inr (.inl h.symm)
  rw [if_neg heof] at h
  obtain ⟨-, h⟩ := Option.ite_none_right_eq_some.mp h
  by_cases hwrite : t.numSent = -1
  · rw [if_pos hwrite, Option.some.injEq] at h
    exact .inl ⟨_, h.symm, rfl⟩
  rw [if_neg hwrite] at h
  by_cases hzero : t.numSent = 0
  · rw [if_pos hzero, Option.some.injEq] at h
    exact .inr (.inr (.inl h.symm))
  rw [if_neg hzero, Option.some.injEq] at h
  exact .inr (.inr (.inr ⟨_, h.symm, rfl⟩))

theorem finish_ne_failed (v : Locals) (s' : Sys) : finish v ≠ .returned (-1) s' := by
  obtain ⟨s, hret⟩ := finish_returned v
  rw [hret]
  intro h
  have htot := (State.returned.inj h).1
  omega

/-- Induction on the iterations. -/
theorem exec_failed {s s' : Sys} {count : ℕ} {v : Locals} {turns : List Turn}
    (h : (sendfile s count).exec (whileCount v) turns = some (.returned (-1) s')) :
    s'.pos = v.sys.pos + bytesRead turns := by
  induction turns generalizing v with
  | nil =>
    have hst : whileCount v = .returned (-1) s' := Option.some.inj h
    unfold whileCount at hst
    split_ifs at hst
    exact absurd hst (finish_ne_failed v s')
  | cons t turns ih =>
    by_cases hv : v.count > 0
    · rw [whileCount, if_pos hv] at h
      simp only [Machine.execUnder, if_true] at h
      obtain ⟨st, hst, hexec⟩ := Option.bind_eq_some_iff.mp h
      rcases iteration_pos hst with ⟨s'', rfl, hpos⟩ | rfl | rfl | ⟨v', rfl, hpos⟩
      · obtain ⟨rfl, hret⟩ := exec_returned hexec
        rw [(State.returned.inj hret).2, hpos]
        rfl
      · exact absurd (exec_finish hexec).2.symm (finish_ne_failed v s')
      · cases turns with
        | nil => cases hexec
        | cons t' turns => simp [Machine.execUnder, sendfile] at hexec
      · rw [ih hexec, hpos, Nat.add_assoc]
        rfl
    · rw [whileCount, if_neg hv] at h
      cases (exec_finish h).1

/-- A call that fails leaves the file offset where it was exactly if it has not moved it, or if what
has been read happens to end there. -/
theorem sendfile_failed_offset_iff (s : Sys) (off : ℤ) (hs : s.offset = some off) (count : ℕ)
    (turns : List Turn) (s' : Sys) (hrun : run s count turns = some (.returned (-1) s')) :
    s'.pos = s.pos ↔ off < 0 ∨ off + bytesRead turns = s.pos := by
  by_cases hneg : off < 0
  · obtain ⟨-, rfl⟩ := State.returned.inj (run_negative hs hneg hrun)
    exact iff_of_true rfl (.inl hneg)
  · have hoff : ∀ o ∈ s.offset, 0 ≤ o := by
      intro o ho
      rw [hs] at ho
      exact Option.some.inj ho ▸ not_lt.mp hneg
    have hstart : ((entered s count).sys.pos : ℤ) = off := by
      simp [entered, Sys.startsAt, hs, not_lt.mp hneg]
    rw [run, start_eq hoff] at hrun
    have hpos := exec_failed hrun
    omega

/-- The first `read()` fails at the offset where the file is. -/
theorem sendfile_failed_offset_iff_same :
    run (sixBytes (some 1)) 4 [⟨-1, 0⟩] = some (.returned (-1) (sixBytes (some 1))) ∧
    (sixBytes (some 1)).pos = 1 ∧ (1 : ℤ) + bytesRead [⟨-1, 0⟩] = (sixBytes (some 1)).pos := by
  have hrun : run (sixBytes (some 1)) 4 [⟨-1, 0⟩] =
      some (.returned (-1) (sixBytes (some 1))) := by decide
  have hiff := sendfile_failed_offset_iff _ 1 rfl 4 [⟨-1, 0⟩] _ hrun
  exact ⟨hrun, rfl, (hiff.mp rfl).resolve_left (by decide)⟩

/-- The second `read()` fails after three bytes have been sent. -/
theorem sendfile_moves_offset :
    ∃ s', run (sixBytes (some 0)) 4 [⟨3, 3⟩, ⟨-1, 0⟩] = some (.returned (-1) s') ∧
      s'.pos ≠ (sixBytes (some 0)).pos :=
  ⟨⟨[0, 1, 2, 3, 4, 5], 3, [0, 1, 2], some 0⟩, by decide, by decide⟩

end Tlpi.Sockets.Sendfile
