import Tlpi.Lib.Lines
import Tlpi.Sockets.ReadLineBuf

/-! Successive calls of `readLine()` and of `readLineBuf()` go through a stream line by line. -/

namespace Tlpi.Sockets

open Lib

theorem headD_lines (bytes : List Char) : (lines '\n' bytes).headD [] = firstLine bytes := by
  induction bytes with
  | nil => rfl
  | cons ch bytes ih =>
    rw [lines, firstLine]
    split_ifs with hch
    · rfl
    · rw [List.headD_cons, ih]

theorem lines_behind (bytes : List Char) :
    lines '\n' (bytes.drop (firstLine bytes).length) = (lines '\n' bytes).tail := by
  rw [← headD_lines, lines_drop]

theorem getD_lines (k : ℕ) (bytes : List Char) :
    (lines '\n' bytes).getD k [] = nthLine k bytes := by
  induction k generalizing bytes with
  | zero => rw [nthLine, ← headD_lines, List.headD_eq_getD]
  | succ k ih =>
    rw [nthLine, ← ih, lines_behind, List.getD_eq_getElem?_getD, List.getD_eq_getElem?_getD,
      List.getElem?_tail]

theorem newline_mem_firstLine {bytes : List Char} : '\n' ∈ firstLine bytes ↔ '\n' ∈ bytes := by
  induction bytes with
  | nil => rfl
  | cons ch bytes ih =>
    rw [firstLine]
    split_ifs with hch
    · simp [hch]
    · rw [List.mem_cons, List.mem_cons, ih]

/-- A line that is not the first one comes behind a newline. -/
theorem newline_mem_of_nthLine {k : ℕ} {bytes : List Char} (h : nthLine (k + 1) bytes ≠ []) :
    '\n' ∈ firstLine bytes := by
  rw [← headD_lines]
  apply sep_mem_of_tail_ne_nil
  intro htail
  apply h
  rw [← getD_lines, lines_getD_eq_nil]
  have hlen : (lines '\n' bytes).tail.length = 0 := by rw [htail, List.length_nil]
  rw [List.length_tail] at hlen
  omega

/-! ## The byte reader -/

/-- The `k`-th of successive calls of `readLine()` on a descriptor. -/
def readLineAt (n : ℕ) : ℕ → Input → Option ReadLine
  | 0, fd => readLine fd n
  | k + 1, fd => (readLine fd n).bind fun r => readLineAt n k { fd with reads := r.rest }

/-- A line without its newline is waited for. -/
theorem readLoop_blocks (n : ℕ) {reads : List Read} (buf : List Char) {bytes : List Char}
    (h : Delivers reads bytes) (hline : '\n' ∉ bytes) : readLoop n false reads buf = none := by
  induction reads generalizing buf bytes with
  | nil => rfl
  | cons r reads ih =>
    cases r with
    | eintr => exact ih buf (delivers_eintr h) hline
    | error => exact absurd h not_delivers_error
    | byte ch =>
      obtain ⟨bytes', rfl, h'⟩ := delivers_byte h
      obtain ⟨hch, hline'⟩ := not_or.mp (List.mem_cons.not.mp hline)
      simp only [readLoop, if_neg (Ne.symm hch)]
      exact ih _ h' hline'

section Step

variable {n : ℕ} (hn : 2 ≤ n) {fd : Input} {bytes : List Char} (h : Delivers fd.reads bytes)
include hn h

theorem readLine_step (hline : fd.eof = true ∨ '\n' ∈ firstLine bytes) :
    ∃ rest, Delivers rest (bytes.drop (firstLine bytes).length) ∧
      readLine fd n = some ⟨((firstLine bytes).take (n - 1)).length,
        terminated n (firstLine bytes), rest⟩ := by
  obtain ⟨reads, eof⟩ := fd
  cases eof with
  | true => exact readLine_stream hn h
  | false =>
    have hmem : '\n' ∈ firstLine bytes := hline.resolve_left Bool.false_ne_true
    rw [terminated, if_neg (List.ne_nil_of_mem hmem)]
    exact readLine_eq hn h (.inl (newline_mem_firstLine.mp hmem))

theorem readLine_blocks (heof : fd.eof = false) (hline : '\n' ∉ firstLine bytes) :
    readLine fd n = none := by
  rw [readLine, if_neg (by omega), heof]
  exact readLoop_blocks n [] h (newline_mem_firstLine.not.mp hline)

end Step

/-- Induction on the calls. -/
theorem readLineAt_eq {n : ℕ} (hn : 2 ≤ n) (k : ℕ) {fd : Input} {bytes : List Char}
    (h : Delivers fd.reads bytes) (hline : fd.eof = true ∨ '\n' ∈ nthLine k bytes) :
    ∃ rest, Delivers rest ((lines '\n' bytes).drop (k + 1)).flatten ∧
      readLineAt n k fd = some ⟨((nthLine k bytes).take (n - 1)).length,
        terminated n (nthLine k bytes), rest⟩ := by
  induction k generalizing fd bytes with
  | zero =>
    obtain ⟨rest, hrest, heq⟩ := readLine_step hn h hline
    refine ⟨rest, ?_, heq⟩
    rwa [zero_add, List.drop_one, flatten_tail_lines, headD_lines]
  | succ k ih =>
    have hfirst : fd.eof = true ∨ '\n' ∈ firstLine bytes :=
      hline.imp_right fun hmem => newline_mem_of_nthLine (List.ne_nil_of_mem hmem)
    obtain ⟨rest, hrest, heq⟩ := readLine_step hn h hfirst
    have hnext := @ih { fd with reads := rest } _ hrest hline
    rw [lines_behind, List.drop_tail] at hnext
    rw [readLineAt, heq]
    exact hnext

theorem readLineAt_blocks {n : ℕ} (hn : 2 ≤ n) (k : ℕ) {fd : Input} {bytes : List Char}
    (h : Delivers fd.reads bytes) (heof : fd.eof = false) (hline : '\n' ∉ nthLine k bytes) :
    readLineAt n k fd = none := by
  induction k generalizing fd bytes with
  | zero => exact readLine_blocks hn h heof hline
  | succ k ih =>
    rw [readLineAt]
    by_cases hfirst : '\n' ∈ firstLine bytes
    · obtain ⟨rest, hrest, heq⟩ := readLine_step hn h (.inr hfirst)
      rw [heq]
      exact @ih { fd with reads := rest } _ hrest heof hline
    · rw [readLine_blocks hn h heof hfirst, Option.bind_none]

/-- Calls of `readLine()` stay in step with the stream. A line that lacks its newline is waited
for. -/
theorem readLine_in_step (fd : Input) (bytes : List Char) (h : Delivers fd.reads bytes) (n : ℕ)
    (hn : 2 ≤ n) (k : ℕ) :
    let line := (lines '\n' bytes).getD k []
    (fd.eof = true ∨ '\n' ∈ line →
      ∃ r, readLineAt n k fd = some r ∧
        Delivers r.rest ((lines '\n' bytes).drop (k + 1)).flatten ∧
        r.ret = (min (n - 1) line.length : ℕ) ∧
        r.buf = (if line = [] then [] else line.take (n - 1) ++ ['\x00']) ∧ r.buf.length ≤ n ∧
        (r.ret = 0 ↔ (lines '\n' bytes).length ≤ k)) ∧
    (fd.eof = false → '\n' ∉ line → readLineAt n k fd = none) := by
  intro line
  have hline : line = nthLine k bytes := getD_lines k bytes
  constructor
  · intro hret
    rw [hline] at hret
    obtain ⟨rest, hrest, heq⟩ := readLineAt_eq hn k h hret
    rw [← hline] at heq
    refine ⟨_, heq, hrest, ?_, rfl, ?_, ?_⟩
    · rw [List.length_take]
    · unfold terminated
      split_ifs with hnil
      · exact Nat.zero_le n
      · rw [List.length_append, List.length_take, List.length_singleton]
        omega
    · rw [← lines_getD_eq_nil]
      show ((line.take (n - 1)).length : ℤ) = 0 ↔ line = []
      have hne : n - 1 ≠ 0 := by omega
      rw [Int.natCast_eq_zero, List.length_eq_zero_iff, List.take_eq_nil_iff, or_iff_right hne]
  · intro heof hmem
    exact readLineAt_blocks hn k h heof (hline ▸ hmem)

/-- Two lines with an interrupted call in the first, which does not fit into the buffer. -/
theorem readLine_in_step_second :
    Delivers [.byte 'a', .eintr, .byte 'b', .byte '\n', .byte 'c'] "ab\nc".toList ∧
    ∃ r, readLineAt 2 1 ⟨[.byte 'a', .eintr, .byte 'b', .byte '\n', .byte 'c'], true⟩ = some r ∧
      r.ret = 1 ∧ r.buf = "c\x00".toList := by
  have hdel : Delivers [.byte 'a', .eintr, .byte 'b', .byte '\n', .byte 'c'] "ab\nc".toList :=
    rfl
  refine ⟨hdel, ?_⟩
  obtain ⟨hstep, -⟩ := readLine_in_step ⟨_, true⟩ _ hdel 2 le_rfl 1
  obtain ⟨r, hr, -, hret, hbuf, -⟩ := hstep (.inl rfl)
  exact ⟨r, hr, hret, hbuf⟩

/-! ## The block reader -/

/-- The loop of `readLineBuf()`, where fetching a character at an index that is not below
`rlbuf->len` is undefined. -/
def checkedLoop (n : ℕ) (rl : ReadLineBuf) (buffer : List Char) (cnt : ℕ) : Option LineBuf :=
  if herr : rl.refill.len = -1 then some ⟨-1, buffer, rl.refill⟩
  else if heof : rl.refill.len = 0 then some ⟨cnt, buffer, rl.refill⟩
  else if rl.refill.next < rl.refill.len then
    let ch := rl.refill.buf.getD rl.refill.next '\x00'
    let rl' := { rl.refill with next := rl.refill.next + 1 }
    let buffer' := if cnt < n then buffer.set cnt ch else buffer
    let cnt' := if cnt < n then cnt + 1 else cnt
    if ch = '\n' then some ⟨cnt', buffer', rl'⟩ else checkedLoop n rl' buffer' cnt'
  else none
termination_by (rl.reads.length, (rl.len - rl.next).toNat)
decreasing_by exact ReadLineBuf.refill_decreases herr heof

def readLineBufChecked (rlbuf : ReadLineBuf) (buffer : List Char) (n : ℕ) : Option LineBuf :=
  if n = 0 then some ⟨-1, buffer, rlbuf⟩ else checkedLoop n rlbuf buffer 0

/-- The `i`-th of successive calls, `none` if one of them fetches at an index out of bounds. -/
def readLineBufsChecked (n : ℕ) : ℕ → (ℕ → List Char) → ReadLineBuf → Option LineBuf
  | 0, buffers, rl => readLineBufChecked rl (buffers 0) n
  | i + 1, buffers, rl =>
    (readLineBufChecked rl (buffers 0) n).bind fun r =>
      readLineBufsChecked n i (fun k => buffers (k + 1)) r.rlbuf

theorem checkedLoop_eq (n : ℕ) {rl : ReadLineBuf} (h : rl.Ok) (buffer : List Char) (cnt : ℕ) :
    checkedLoop n rl buffer cnt = some (readLineBufLoop n rl buffer cnt) := by
  fun_induction checkedLoop n rl buffer cnt with
  | case1 rl buffer cnt herr => rw [readLineBufLoop, dif_pos herr]
  | case2 rl buffer cnt herr heof => rw [readLineBufLoop, dif_neg herr, dif_pos heof]
  | case3 rl buffer cnt herr heof hlt ch rl' buffer' cnt' hch =>
    rw [readLineBufLoop, dif_neg herr, dif_neg heof]
    exact congrArg some (if_pos hch).symm
  | case4 rl buffer cnt herr heof hlt ch rl' buffer' cnt' hch ih =>
    obtain ⟨hok, -⟩ := ReadLineBuf.refill_spec h
    rw [readLineBufLoop, dif_neg herr, dif_neg heof, ih hok.fetched]
    exact congrArg some (if_neg hch).symm
  | case5 rl buffer cnt herr heof hlt =>
    obtain ⟨-, -, ⟨hzero, -⟩ | hlt'⟩ := ReadLineBuf.refill_spec h
    · exact absurd hzero heof
    · exact absurd hlt' hlt

theorem readLineBufsChecked_eq {n : ℕ} (hn : n ≠ 0) (i : ℕ) {buffers : ℕ → List Char}
    (hbuf : ∀ k, (buffers k).length = n) {rl : ReadLineBuf} (h : rl.Ok) :
    readLineBufsChecked n i buffers rl = some (readLineBufs n i buffers rl) := by
  have hcall : ∀ {rl : ReadLineBuf} (buffer : List Char), rl.Ok →
      readLineBufChecked rl buffer n = some (readLineBuf rl buffer n) := by
    intro rl buffer hok
    rw [readLineBufChecked, readLineBuf, if_neg hn, if_neg hn, checkedLoop_eq n hok]
  induction i generalizing buffers rl with
  | zero => exact hcall (buffers 0) h
  | succ i ih =>
    obtain ⟨rl', hok, -, heq⟩ := readLineBuf_eq hn h (hbuf 0) rfl
    rw [readLineBufsChecked, readLineBufs, hcall (buffers 0) h, Option.bind_some]
    apply ih (fun k => hbuf (k + 1))
    rw [heq]
    exact hok

theorem readLineBufs_line {blocks : List (List Char)}
    (hblocks : ∀ b ∈ blocks, 1 ≤ b.length ∧ b.length ≤ RL_MAX_BUF) {rl : ReadLineBuf}
    (hrl : rl.buf.length = RL_MAX_BUF) {n : ℕ} (hn : n ≠ 0) {buffers : ℕ → List Char}
    (hbuf : ∀ k, (buffers k).length = n) (k : ℕ) :
    ∃ rl', readLineBufs n k buffers (readLineBufInit (blocks.map some) rl) =
      ⟨(min n ((lines '\n' blocks.flatten).getD k []).length : ℕ),
        overwrite (buffers k) 0 (((lines '\n' blocks.flatten).getD k []).take n), rl'⟩ := by
  obtain ⟨rl', heq⟩ := readLineBufs_eq hn k hbuf
    (readLineBufInit_ok hblocks hrl) (readLineBufInit_pending blocks rl)
  rw [heq, getD_lines, List.length_take]
  exact ⟨rl', rfl⟩

/-- Calls of `readLineBuf()` return the lines of the stream, however `read()` splits it. -/
theorem readLineBuf_lines (blocks : List (List Char))
    (hblocks : ∀ b ∈ blocks, 1 ≤ b.length ∧ b.length ≤ RL_MAX_BUF) (rl : ReadLineBuf)
    (hrl : rl.buf.length = RL_MAX_BUF) (n : ℕ) (hn : 1 ≤ n) (buffers : ℕ → List Char)
    (hbuf : ∀ k, (buffers k).length = n) (k : ℕ) :
    let line := (lines '\n' blocks.flatten).getD k []
    let call := readLineBufs n k buffers (readLineBufInit (blocks.map some) rl)
    call.ret = (min n line.length : ℕ) ∧ call.buffer = overwrite (buffers k) 0 (line.take n) ∧
      (call.ret = 0 ↔ (lines '\n' blocks.flatten).length ≤ k) ∧
      readLineBufsChecked n k buffers (readLineBufInit (blocks.map some) rl) = some call ∧
      ∀ blocks' : List (List Char), (∀ b ∈ blocks', 1 ≤ b.length ∧ b.length ≤ RL_MAX_BUF) →
        blocks'.flatten = blocks.flatten → ∀ rl' : ReadLineBuf, rl'.buf.length = RL_MAX_BUF →
        let call' := readLineBufs n k buffers (readLineBufInit (blocks'.map some) rl')
        call'.ret = call.ret ∧ call'.buffer = call.buffer := by
  intro line call
  have hn0 : n ≠ 0 := Nat.one_le_iff_ne_zero.mp hn
  obtain ⟨_, hcall⟩ := readLineBufs_line hblocks hrl hn0 hbuf k
  have hret : call.ret = (min n line.length : ℕ) := congrArg LineBuf.ret hcall
  have hstored : call.buffer = overwrite (buffers k) 0 (line.take n) :=
    congrArg LineBuf.buffer hcall
  refine ⟨hret, hstored, ?_, ?_, ?_⟩
  · rw [hret, ← lines_getD_eq_nil, Int.natCast_eq_zero, Nat.min_eq_zero_iff, or_iff_right hn0]
    exact List.length_eq_zero_iff
  · exact readLineBufsChecked_eq hn0 k hbuf (readLineBufInit_ok hblocks hrl)
  · intro blocks' hblocks' hflat rl' hrl' call'
    obtain ⟨_, hcall'⟩ := readLineBufs_line hblocks' hrl' hn0 hbuf k
    rw [hflat] at hcall'
    exact ⟨(congrArg LineBuf.ret hcall').trans hret.symm,
      (congrArg LineBuf.buffer hcall').trans hstored.symm⟩

theorem readLineBuf_lines_two_splits :
    (∀ b ∈ ["ab\nc".toList, "d".toList], 1 ≤ b.length ∧ b.length ≤ RL_MAX_BUF) ∧
    (∀ b ∈ ["ab".toList, "\ncd".toList], 1 ≤ b.length ∧ b.length ≤ RL_MAX_BUF) ∧
    (readLineBufs 3 1 (fun _ => "xxx".toList)
      (readLineBufInit (["ab\nc".toList, "d".toList].map some) someBuf)).buffer = "cdx".toList ∧
    (readLineBufs 3 1 (fun _ => "xxx".toList)
      (readLineBufInit (["ab".toList, "\ncd".toList].map some) someBuf)).buffer =
        "cdx".toList := by
  have hsplit : ∀ b ∈ ["ab\nc".toList, "d".toList], 1 ≤ b.length ∧ b.length ≤ RL_MAX_BUF := by
    decide
  have hsplit' : ∀ b ∈ ["ab".toList, "\ncd".toList], 1 ≤ b.length ∧ b.length ≤ RL_MAX_BUF := by
    decide
  obtain ⟨-, hstored, -, -, hsame⟩ := readLineBuf_lines _ hsplit someBuf rfl 3 (by decide)
    (fun _ => "xxx".toList) (fun _ => rfl) 1
  obtain ⟨-, hbuffer⟩ := hsame _ hsplit' rfl someBuf rfl
  exact ⟨hsplit, hsplit', hstored, hbuffer.trans hstored⟩

end Tlpi.Sockets
