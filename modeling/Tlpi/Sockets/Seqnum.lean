import Tlpi.Lib.CString
import Tlpi.Lib.Machine
import Tlpi.Lib.Slots
import Tlpi.Lib.Strtol
import Tlpi.Sockets.ReadLine

/-! The iterative server of `sockets/is_seqnum_sv.c` and the reply that a client of
`sockets/is_seqnum_cl.c` reads. A step of the server is one client connection. -/

namespace Tlpi.Sockets.Seqnum
open Lib

def INT_LEN : ℕ := 30

/-- The string in a buffer. -/
def cstr (buf : List Char) : List Char := buf.takeWhile (· ≠ '\x00')

/-- A connection: what the server reads from it, and how many bytes `write()` transfers to it. -/
structure Conn where
  input : Input
  transferred : ℕ

/-- What the server does with a connection. -/
structure Served where
  seqNum : BitVec 32
  granted : Option ℤ
  /-- The part of the reply that is written. -/
  sent : List Char
  deriving DecidableEq

def seqNumStr (seqNum : BitVec 32) : List Char :=
  snprintf INT_LEN (decimal seqNum.toInt ++ ['\n'])

/-- The connection is closed without a reply. -/
def skip (seqNum : BitVec 32) : Served := ⟨seqNum, none, []⟩

/-- The body of the loop after `accept()`; `none` while `readLine()` blocks. -/
def serve (seqNum : BitVec 32) (conn : Conn) : Option Served :=
  (readLine conn.input INT_LEN).map fun r =>
    if r.ret ≤ 0 then skip seqNum
    else
      let reqLen := atoi (cstr r.buf)
      if reqLen ≤ 0 then skip seqNum
      else
        { seqNum := seqNum + BitVec.ofInt 32 reqLen
          granted := some reqLen
          sent := (seqNumStr seqNum).take conn.transferred }

structure Grant where
  start : BitVec 32
  len : ℤ
  deriving DecidableEq

structure State where
  seqNum : BitVec 32
  grants : List Grant

inductive Act
  | acceptFails
  | client (conn : Conn)

def step (s : State) : Act → Option State
  | .acceptFails => some s
  | .client conn =>
    (serve s.seqNum conn).map fun r =>
      { seqNum := r.seqNum
        grants := s.grants ++ r.granted.toList.map fun reqLen => ⟨s.seqNum, reqLen⟩ }

def machine (initSeqNum : BitVec 32) : Machine State Act where
  init s := s = ⟨initSeqNum, []⟩
  step := step

/-! ## Requests and replies -/

theorem cstr_concat_nul {line : List Char} : cstr (line ++ ['\x00']) = cstr line := by
  induction line with
  | nil => rfl
  | cons ch line ih =>
    unfold cstr at ih ⊢
    rw [List.cons_append, List.takeWhile_cons, List.takeWhile_cons, ih]

theorem cstr_of_not_mem {line : List Char} (h : '\x00' ∉ line) : cstr line = line := by
  induction line with
  | nil => rfl
  | cons ch line ih =>
    obtain ⟨hch, hline⟩ := not_or.mp (List.mem_cons.not.mp h)
    unfold cstr at ih ⊢
    rw [List.takeWhile_cons, if_pos (decide_eq_true (Ne.symm hch)), ih hline]

/-- The length that the first line of a stream asks for. -/
def requested (bytes : List Char) : ℤ := atoi (cstr ((firstLine bytes).take (INT_LEN - 1)))

theorem length_take_pos {line : List Char} (h : line ≠ []) :
    ¬ ((line.take (INT_LEN - 1)).length : ℤ) ≤ 0 := by
  have hpos := List.length_pos_of_ne_nil h
  rw [List.length_take]
  have : (1 : ℕ) ≤ INT_LEN - 1 := by decide
  omega

theorem firstLine_ne_nil {bytes : List Char} (h : bytes ≠ []) : firstLine bytes ≠ [] := by
  cases bytes with
  | nil => exact absurd rfl h
  | cons ch bytes =>
    unfold firstLine
    split_ifs <;> simp

/-- The server asks for the first line of what the client sends. -/
theorem serve_eq (seqNum : BitVec 32) {conn : Conn} {bytes : List Char}
    (h : Delivers conn.input.reads bytes)
    (hline : '\n' ∈ bytes ∨ conn.input.eof = true ∧ bytes ≠ []) :
    serve seqNum conn = some (if requested bytes ≤ 0 then skip seqNum
      else
        { seqNum := seqNum + BitVec.ofInt 32 (requested bytes)
          granted := some (requested bytes)
          sent := (seqNumStr seqNum).take conn.transferred }) := by
  have hne : bytes ≠ [] := by
    rcases hline with hmem | ⟨-, hne⟩
    · exact List.ne_nil_of_mem hmem
    · exact hne
  obtain ⟨rest, -, hread⟩ := readLine_eq (n := INT_LEN) (by decide) h hline
  rw [serve, hread, Option.map_some, if_neg (length_take_pos (firstLine_ne_nil hne)),
    cstr_concat_nul]
  rfl

theorem newline_not_mem_decimal (z : ℤ) : '\n' ∉ decimal z := by
  intro h
  rcases mem_decimal h with h | h <;> exact absurd h (by decide)

theorem nul_not_mem_decimal (z : ℤ) : '\x00' ∉ decimal z ++ ['\n'] := by
  intro h
  rcases List.mem_append.mp h with h | h
  · rcases mem_decimal h with h | h <;> exact absurd h (by decide)
  · exact absurd h (by decide)

/-- The line of a decimal fits the buffers of both sides. -/
theorem take_decimal_line {z : ℤ} (hmin : INT_MIN ≤ z) (hmax : z ≤ INT_MAX) :
    (decimal z ++ ['\n']).take (INT_LEN - 1) = decimal z ++ ['\n'] := by
  refine List.take_of_length_le ?_
  have hlen := length_decimal_le hmin hmax
  have : INT_LEN - 1 = 29 := rfl
  rw [List.length_append, List.length_singleton]
  omega

theorem requested_decimal {z : ℤ} (hmin : INT_MIN ≤ z) (hmax : z ≤ INT_MAX) :
    requested (decimal z ++ ['\n']) = z := by
  rw [requested, firstLine_line (newline_not_mem_decimal z), take_decimal_line hmin hmax,
    cstr_of_not_mem (nul_not_mem_decimal z)]
  exact atoi_decimal hmin hmax (by rintro _ ⟨⟩; decide)

theorem toInt_bounds (v : BitVec 32) : INT_MIN ≤ v.toInt ∧ v.toInt ≤ INT_MAX := by
  have hlow := v.le_toInt
  have hhigh := v.toInt_lt
  unfold INT_MIN INT_MAX
  omega

theorem seqNumStr_eq (seqNum : BitVec 32) : seqNumStr seqNum = decimal seqNum.toInt ++ ['\n'] :=
  take_decimal_line (toInt_bounds seqNum).1 (toInt_bounds seqNum).2

/-- The client reads back the reply line. -/
theorem readLine_seqNumStr {seqNum : BitVec 32} {fd : Input}
    (h : Delivers fd.reads (seqNumStr seqNum)) :
    ∃ rest, readLine fd INT_LEN = some ⟨(seqNumStr seqNum).length,
      decimal seqNum.toInt ++ ['\n'] ++ ['\x00'], rest⟩ := by
  obtain ⟨rest, -, hread⟩ := readLine_eq (n := INT_LEN) (by decide) h
    (.inl (by simp [seqNumStr_eq]))
  have hline : firstLine (seqNumStr seqNum) = decimal seqNum.toInt ++ ['\n'] := by
    rw [seqNumStr_eq, firstLine_line (newline_not_mem_decimal _)]
  rw [hline, take_decimal_line (toInt_bounds seqNum).1 (toInt_bounds seqNum).2] at hread
  rw [seqNumStr_eq]
  exact ⟨rest, hread⟩

/-- A stream that does not begin with the line of a positive number. -/
theorem serve_skip {seqNum : BitVec 32} {conn : Conn} {bytes : List Char}
    (h : Delivers conn.input.reads bytes) (hline : '\n' ∈ bytes ∨ conn.input.eof = true)
    (hreq : requested bytes ≤ 0) : serve seqNum conn = some (skip seqNum) := by
  by_cases hne : bytes = []
  · subst hne
    have heof : conn.input.eof = true := hline.resolve_left (List.not_mem_nil)
    rw [serve, readLine_eof (by decide) h heof]
    rfl
  · rw [serve_eq seqNum h (hline.imp_right fun heof => ⟨heof, hne⟩), if_pos hreq]

theorem serve_cases {seqNum : BitVec 32} {conn : Conn} {r : Served}
    (h : serve seqNum conn = some r) :
    r = skip seqNum ∨ ∃ reqLen, 0 < reqLen ∧
      r = { seqNum := seqNum + BitVec.ofInt 32 reqLen
            granted := some reqLen
            sent := (seqNumStr seqNum).take conn.transferred } := by
  obtain ⟨line, -, rfl⟩ := Option.map_eq_some_iff.mp h
  dsimp only
  split_ifs with hret hreq
  · exact .inl rfl
  · exact .inl rfl
  · exact .inr ⟨_, not_le.mp hreq, rfl⟩

/-! ## The ranges -/

def toGrant (initSeqNum : BitVec 32) (a : ℕ × ℕ) : Grant :=
  ⟨initSeqNum + BitVec.ofNat 32 a.1, a.2⟩

/-- The grants are the consecutive ranges of some lengths. -/
def Consecutive (initSeqNum : BitVec 32) (s : State) : Prop :=
  ∃ ls : List ℕ, s.grants = (slots 0 ls).map (toGrant initSeqNum) ∧
    s.seqNum = initSeqNum + BitVec.ofNat 32 ls.sum

theorem consecutive_step {initSeqNum : BitVec 32} {s s' : State} (h : Consecutive initSeqNum s)
    (a : Act) (hs : step s a = some s') : Consecutive initSeqNum s' := by
  obtain ⟨ls, hgrants, hseq⟩ := h
  cases a with
  | acceptFails =>
    cases hs
    exact ⟨ls, hgrants, hseq⟩
  | client conn =>
    obtain ⟨r, hr, rfl⟩ := Option.map_eq_some_iff.mp hs
    rcases serve_cases hr with rfl | ⟨reqLen, hpos, rfl⟩
    · exact ⟨ls, by simpa [skip] using hgrants, hseq⟩
    · obtain ⟨len, rfl⟩ := Int.eq_ofNat_of_zero_le hpos.le
      refine ⟨ls ++ [len], ?_, ?_⟩
      · simp [slots_concat, hgrants, hseq, toGrant]
      · simp only [hseq, List.sum_append, List.sum_singleton, BitVec.ofNat_add, BitVec.add_assoc]
        rfl

theorem consecutive_of_reachable {initSeqNum : BitVec 32} {s : State}
    (hs : (machine initSeqNum).Reachable s) : Consecutive initSeqNum s := by
  refine hs.invariant (I := Consecutive initSeqNum) ?_ fun _ a _ hi ha => consecutive_step hi a ha
  rintro _ rfl
  exact ⟨[], rfl, by simp⟩

theorem sum_len_slots (initSeqNum : BitVec 32) (o : ℕ) (ls : List ℕ) :
    (((slots o ls).map (toGrant initSeqNum)).map Grant.len).sum = ls.sum := by
  induction ls generalizing o with
  | nil => rfl
  | cons l ls ih =>
    rw [slots, List.map_cons, List.map_cons, List.sum_cons, ih, List.sum_cons, Nat.cast_add]
    rfl

/-- Ranges do not overlap, and every complete reply is the start of the range. -/
theorem is_seqnum_disjoint {initSeqNum : BitVec 32} {s : State}
    (hs : (machine initSeqNum).Reachable s) :
    (∀ conn bytes, Delivers conn.input.reads bytes → '\n' ∈ bytes ∨ conn.input.eof = true →
      requested bytes ≤ 0 → serve s.seqNum conn = some (skip s.seqNum)) ∧
    (∀ conn r, serve s.seqNum conn = some r → r.granted = none → r = skip s.seqNum) ∧
    (∀ conn r fd, serve s.seqNum conn = some r → r.granted ≠ none →
      (seqNumStr s.seqNum).length ≤ conn.transferred → Delivers fd.reads r.sent →
      ∃ l, readLine fd INT_LEN = some l ∧ l.ret = (seqNumStr s.seqNum).length ∧
        cstr l.buf = decimal s.seqNum.toInt ++ ['\n']) ∧
    (∀ conn n, 1 ≤ n → n ≤ INT_MAX → Delivers conn.input.reads (decimal n ++ ['\n']) →
      ∃ s', step s (.client conn) = some s' ∧ s'.grants = s.grants ++ [⟨s.seqNum, n⟩]) ∧
    ((s.grants.map Grant.len).sum ≤ 2 ^ 32 →
      s.grants.Pairwise fun g h => ∀ x y : ℕ, (x : ℤ) < g.len → (y : ℤ) < h.len →
        g.start + BitVec.ofNat 32 x ≠ h.start + BitVec.ofNat 32 y) := by
  refine ⟨fun conn bytes h hline => serve_skip h hline, fun conn r h hnone => ?_,
    fun conn r fd h hsome hlen hfd => ?_, fun conn n hpos hmax h => ?_, fun hsum => ?_⟩
  · rcases serve_cases h with rfl | ⟨reqLen, -, rfl⟩
    · rfl
    · cases hnone
  · rcases serve_cases h with rfl | ⟨reqLen, -, rfl⟩
    · exact absurd rfl hsome
    · rw [List.take_of_length_le hlen] at hfd
      obtain ⟨rest, hread⟩ := readLine_seqNumStr hfd
      refine ⟨_, hread, rfl, ?_⟩
      rw [cstr_concat_nul, cstr_of_not_mem (nul_not_mem_decimal _)]
  · have hmin : INT_MIN ≤ n := by
      unfold INT_MIN
      omega
    have hserve := serve_eq s.seqNum h (.inl (by simp))
    rw [requested_decimal hmin hmax, if_neg (by omega)] at hserve
    exact ⟨_, by rw [step, hserve]; rfl, rfl⟩
  · obtain ⟨ls, hgrants, -⟩ := consecutive_of_reachable hs
    rw [hgrants, sum_len_slots] at hsum
    rw [hgrants, List.pairwise_map]
    refine (pairwise_slots_wrap initSeqNum (by exact_mod_cast hsum)).imp fun hab x y hx hy => ?_
    exact hab x (Int.ofNat_lt.mp hx) y (Int.ofNat_lt.mp hy)

/-- A request for 5 numbers, a line that is no number, and a request for 7 numbers. -/
theorem is_seqnum_disjoint_run : ∃ s, (machine 4294967290).Reachable s ∧
    s.grants = [⟨4294967290, 5⟩, ⟨4294967295, 7⟩] ∧
    s.grants.Pairwise fun g h => ∀ x y : ℕ, (x : ℤ) < g.len → (y : ℤ) < h.len →
      g.start + BitVec.ofNat 32 x ≠ h.start + BitVec.ofNat 32 y := by
  obtain ⟨s, hs, hp⟩ := Machine.exists_reachable_of_exec (M := machine 4294967290) rfl
    [.client ⟨⟨[.byte '5', .eintr, .byte '\n'], false⟩, 12⟩,
      .client ⟨⟨[.byte 'x', .byte '\n'], false⟩, 12⟩,
      .client ⟨⟨[.byte '7', .byte '\n'], true⟩, 0⟩]
    (fun s => s.grants = [⟨4294967290, 5⟩, ⟨4294967295, 7⟩]) (by decide)
  have hgrants := of_decide_eq_true hp
  exact ⟨s, hs, hgrants, (is_seqnum_disjoint hs).2.2.2.2 (by simp [hgrants])⟩

end Tlpi.Sockets.Seqnum
