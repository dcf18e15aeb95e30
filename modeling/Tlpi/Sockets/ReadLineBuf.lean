import Tlpi.Sockets.ReadLine

/-! `readLineBuf()` of `sockets/read_line_buf.c`, which reads blocks of bytes, and how it compares
with `readLine()`. -/

namespace Tlpi.Sockets

def RL_MAX_BUF : ℕ := 10

/-- The structure, together with the results of the next `read()` calls on its descriptor: a block,
or `none` for an error. End-of-file comes after them. -/
structure ReadLineBuf where
  reads : List (Option (List Char))
  buf : List Char
  next : ℕ
  len : ℤ

def readLineBufInit (reads : List (Option (List Char))) (rlbuf : ReadLineBuf) : ReadLineBuf :=
  { rlbuf with reads := reads, len := 0, next := 0 }

namespace ReadLineBuf

/-- `rlbuf->len = read(rlbuf->fd, rlbuf->buf, RL_MAX_BUF)` -/
def read (rl : ReadLineBuf) : ReadLineBuf :=
  match rl.reads with
  | [] => { rl with len := 0 }
  | none :: reads => { rl with reads := reads, len := -1 }
  | some block :: reads =>
    { rl with reads := reads, buf := block ++ rl.buf.drop block.length, len := block.length }

/-- Obtains further input if there are no characters left in the buffer. -/
def refill (rl : ReadLineBuf) : ReadLineBuf :=
  if rl.next ≥ rl.len then
    let rl := rl.read
    if rl.len = -1 ∨ rl.len = 0 then rl else { rl with next := 0 }
  else rl

/-- Reading a block leaves fewer of them, and fetching a character leaves fewer characters. -/
theorem refill_decreases {rl : ReadLineBuf} (herr : ¬ rl.refill.len = -1)
    (heof : ¬ rl.refill.len = 0) :
    Prod.Lex (· < ·) (· < ·)
      (rl.refill.reads.length, (rl.refill.len - (rl.refill.next + 1 : ℕ)).toNat)
      (rl.reads.length, (rl.len - rl.next).toNat) := by
  obtain ⟨reads, buf, next, len⟩ := rl
  unfold refill at *
  by_cases hlen : (next : ℤ) ≥ len
  · apply Prod.Lex.left
    rcases reads with _ | ⟨_ | block, reads⟩
    · simp [hlen, read] at heof
    · simp [hlen, read] at herr
    · simp only [hlen, read, if_true]
      split_ifs <;> exact Nat.lt_succ_self _
  · rw [if_neg hlen]
    apply Prod.Lex.right
    dsimp only
    omega

end ReadLineBuf

/-- The value that `readLineBuf()` returns, the caller's buffer and the structure. -/
structure LineBuf where
  ret : ℤ
  buffer : List Char
  rlbuf : ReadLineBuf

/-- The loop of `readLineBuf()`. -/
def readLineBufLoop (n : ℕ) (rl : ReadLineBuf) (buffer : List Char) (cnt : ℕ) : LineBuf :=
  if herr : rl.refill.len = -1 then ⟨-1, buffer, rl.refill⟩
  else if heof : rl.refill.len = 0 then ⟨cnt, buffer, rl.refill⟩
  else
    let ch := rl.refill.buf.getD rl.refill.next '\x00'
    let rl' := { rl.refill with next := rl.refill.next + 1 }
    let buffer' := if cnt < n then buffer.set cnt ch else buffer
    let cnt' := if cnt < n then cnt + 1 else cnt
    if ch = '\n' then ⟨cnt', buffer', rl'⟩ else readLineBufLoop n rl' buffer' cnt'
termination_by (rl.reads.length, (rl.len - rl.next).toNat)
decreasing_by exact ReadLineBuf.refill_decreases herr heof

def readLineBuf (rlbuf : ReadLineBuf) (buffer : List Char) (n : ℕ) : LineBuf :=
  if n = 0 then ⟨-1, buffer, rlbuf⟩ else readLineBufLoop n rlbuf buffer 0

/-! ## One line -/

namespace ReadLineBuf

/-- The bytes that are still to be returned. -/
def pending (rl : ReadLineBuf) : List Char :=
  (rl.buf.take rl.len.toNat).drop rl.next ++ (rl.reads.filterMap id).flatten

/-- No `read()` fails, and each returns a block of a size that it can have. -/
structure Ok (rl : ReadLineBuf) : Prop where
  blocks : ∀ r ∈ rl.reads, ∃ block, r = some block ∧ 1 ≤ block.length ∧ block.length ≤ RL_MAX_BUF
  size : rl.buf.length = RL_MAX_BUF
  len_nonneg : 0 ≤ rl.len
  len_le : rl.len ≤ RL_MAX_BUF

/-- In a structure with characters left, the next one is in its buffer. -/
theorem fetch {rl : ReadLineBuf} (h : rl.Ok) (hlen : rl.next < rl.len) :
    rl.pending = rl.buf.getD rl.next '\x00' :: { rl with next := rl.next + 1 }.pending := by
  have hlen_le := h.len_le
  have hsize := h.size
  have hlt : rl.next < (rl.buf.take rl.len.toNat).length := by
    rw [List.length_take]
    omega
  have hbuf : rl.next < rl.buf.length := by omega
  have hget : rl.buf.getD rl.next '\x00' = rl.buf[rl.next] := by simp [hbuf]
  unfold pending
  rw [List.drop_eq_getElem_cons hlt, List.getElem_take, List.cons_append, hget]

theorem Ok.fetched {rl : ReadLineBuf} (h : rl.Ok) : Ok { rl with next := rl.next + 1 } :=
  ⟨h.blocks, h.size, h.len_nonneg, h.len_le⟩

section Refill

variable {reads : List (Option (List Char))} {buf block : List Char} {next : ℕ} {len : ℤ}

theorem refill_kept (h : next < len) :
    refill ⟨reads, buf, next, len⟩ = ⟨reads, buf, next, len⟩ := if_neg (not_le.mpr h)

theorem refill_eof (h : next ≥ len) : refill ⟨[], buf, next, len⟩ = ⟨[], buf, next, 0⟩ := by
  rw [refill, if_pos h]
  simp [read]

theorem refill_block (h : next ≥ len) (hblock : 1 ≤ block.length) :
    refill ⟨some block :: reads, buf, next, len⟩ =
      ⟨reads, block ++ buf.drop block.length, 0, block.length⟩ := by
  have hne : ¬ ((block.length : ℤ) = -1 ∨ (block.length : ℤ) = 0) := by omega
  rw [refill, if_pos h]
  exact if_neg hne

end Refill

/-- Refilling does not change what is to be returned, and leaves the buffer empty only at
end-of-file. -/
theorem refill_spec {rl : ReadLineBuf} (h : rl.Ok) :
    rl.refill.Ok ∧ rl.refill.pending = rl.pending ∧
      (rl.refill.len = 0 ∧ rl.pending = [] ∨ rl.refill.next < rl.refill.len) := by
  obtain ⟨reads, buf, next, len⟩ := rl
  have hlen0 : 0 ≤ len := h.len_nonneg
  have hsize : buf.length = RL_MAX_BUF := h.size
  by_cases hlen : (next : ℤ) ≥ len
  · have hnil : (buf.take len.toNat).drop next = [] := by
      apply List.drop_eq_nil_of_le
      rw [List.length_take]
      omega
    cases reads with
    | nil =>
      rw [refill_eof hlen]
      refine ⟨⟨h.blocks, hsize, le_rfl, Int.natCast_nonneg _⟩, ?_, .inl ⟨rfl, ?_⟩⟩
      · simp [pending, hnil]
      · simp [pending, hnil]
    | cons r reads =>
      obtain ⟨block, rfl, hpos, hmax⟩ := h.blocks r List.mem_cons_self
      rw [refill_block hlen hpos]
      refine ⟨⟨?_, ?_, ?_, ?_⟩, ?_, .inr ?_⟩
      · exact fun r hr => h.blocks r (List.mem_cons_of_mem _ hr)
      · rw [List.length_append, List.length_drop, hsize]
        omega
      · exact Int.natCast_nonneg _
      · exact Nat.cast_le.mpr hmax
      · simp [pending, hnil]
      · exact Nat.cast_pos.mpr hpos
  · rw [refill_kept (not_le.mp hlen)]
    exact ⟨h, rfl, .inr (not_le.mp hlen)⟩

end ReadLineBuf

/-- The buffer after `stored` has been put behind its first `cnt` bytes. -/
def overwrite (buffer : List Char) (cnt : ℕ) (stored : List Char) : List Char :=
  buffer.take cnt ++ stored ++ buffer.drop (cnt + stored.length)

theorem overwrite_set {buffer : List Char} {cnt : ℕ} (h : cnt < buffer.length) (ch : Char)
    (stored : List Char) :
    overwrite (buffer.set cnt ch) (cnt + 1) stored = overwrite buffer cnt (ch :: stored) := by
  have htake : (buffer.set cnt ch).take (cnt + 1) = buffer.take cnt ++ [ch] := by
    rw [List.take_set, List.take_add_one, List.getElem?_eq_getElem h, Option.toList_some,
      List.set_append_right _ _ (List.length_take_le ..), List.length_take, min_eq_left h.le,
      Nat.sub_self]
    rfl
  unfold overwrite
  rw [htake, List.drop_set_of_lt (by omega), List.length_cons, Nat.add_assoc, Nat.add_comm 1,
    List.append_assoc _ [ch], List.singleton_append]

section Loop

variable (n : ℕ) (buffer : List Char) (cnt : ℕ) {rl : ReadLineBuf} (h : rl.Ok)
include h

theorem readLineBufLoop_eof (hp : rl.pending = []) :
    ∃ rl' : ReadLineBuf, rl'.Ok ∧ rl'.pending = [] ∧
      readLineBufLoop n rl buffer cnt = ⟨cnt, buffer, rl'⟩ := by
  obtain ⟨hok, hpend, ⟨hlen, -⟩ | hlen⟩ := ReadLineBuf.refill_spec h
  · refine ⟨rl.refill, hok, hpend.trans hp, ?_⟩
    have herr : ¬ rl.refill.len = -1 := by omega
    rw [readLineBufLoop, dif_neg herr, dif_pos hlen]
  · rw [ReadLineBuf.fetch hok hlen, hp] at hpend
    cases hpend

theorem readLineBufLoop_char {ch : Char} {bytes : List Char} (hp : rl.pending = ch :: bytes) :
    ∃ rl' : ReadLineBuf, rl'.Ok ∧ rl'.pending = bytes ∧
      readLineBufLoop n rl buffer cnt =
        if ch = '\n' then
          ⟨(if cnt < n then cnt + 1 else cnt : ℕ), if cnt < n then buffer.set cnt ch else buffer,
            rl'⟩
        else
          readLineBufLoop n rl' (if cnt < n then buffer.set cnt ch else buffer)
            (if cnt < n then cnt + 1 else cnt) := by
  obtain ⟨hok, hpend, ⟨-, hnil⟩ | hlen⟩ := ReadLineBuf.refill_spec h
  · rw [hp] at hnil
    cases hnil
  · rw [ReadLineBuf.fetch hok hlen, hp] at hpend
    obtain ⟨hch, hbytes⟩ := List.cons.inj hpend
    refine ⟨_, hok.fetched, hbytes, ?_⟩
    have herr : ¬ rl.refill.len = -1 := by omega
    have heof : ¬ rl.refill.len = 0 := by omega
    rw [readLineBufLoop, dif_neg herr, dif_neg heof]
    simp only [hch]

end Loop

/-- Once the buffer is full, nothing is stored any more. -/
theorem overwrite_char {n : ℕ} {buffer : List Char} (hbuf : buffer.length = n) {cnt : ℕ}
    (hcnt : cnt ≤ n) (ch : Char) (line : List Char) :
    overwrite (if cnt < n then buffer.set cnt ch else buffer) (if cnt < n then cnt + 1 else cnt)
        (line.take (n - if cnt < n then cnt + 1 else cnt)) =
      overwrite buffer cnt ((ch :: line).take (n - cnt)) ∧
    (if cnt < n then cnt + 1 else cnt) +
        (line.take (n - if cnt < n then cnt + 1 else cnt)).length =
      cnt + ((ch :: line).take (n - cnt)).length := by
  by_cases hlt : cnt < n
  · have hsub : n - cnt = (n - (cnt + 1)) + 1 := by omega
    simp only [if_pos hlt]
    rw [hsub, List.take_succ_cons, overwrite_set (by omega), List.length_cons]
    exact ⟨rfl, by omega⟩
  · have hsub : n - cnt = 0 := by omega
    simp only [if_neg hlt, hsub, List.take_zero, and_self]

/-- Induction on the bytes that are left. -/
theorem readLineBufLoop_line {n : ℕ} {rl : ReadLineBuf} (h : rl.Ok) {buffer : List Char} {cnt : ℕ}
    (hbuf : buffer.length = n) (hcnt : cnt ≤ n) {bytes : List Char} (hp : rl.pending = bytes) :
    ∃ rl' : ReadLineBuf, rl'.Ok ∧ rl'.pending = bytes.drop (firstLine bytes).length ∧
      readLineBufLoop n rl buffer cnt =
        ⟨(cnt + ((firstLine bytes).take (n - cnt)).length : ℕ),
          overwrite buffer cnt ((firstLine bytes).take (n - cnt)), rl'⟩ := by
  induction bytes generalizing rl buffer cnt with
  | nil =>
    obtain ⟨rl', hok, hp', hloop⟩ := readLineBufLoop_eof n buffer cnt h hp
    refine ⟨rl', hok, hp', ?_⟩
    rw [hloop]
    simp [firstLine, overwrite]
  | cons ch bytes ih =>
    obtain ⟨rl', hok, hp', hloop⟩ := readLineBufLoop_char n buffer cnt h hp
    rw [hloop]
    by_cases hch : ch = '\n'
    · refine ⟨rl', hok, by simpa [firstLine, hch] using hp', ?_⟩
      obtain ⟨hover, hlen⟩ := overwrite_char hbuf hcnt ch []
      rw [if_pos hch, firstLine, if_pos hch, ← hover, ← hlen]
      simp [overwrite]
    · have hbuf' : (if cnt < n then buffer.set cnt ch else buffer).length = n := by
        split_ifs
        · rw [List.length_set, hbuf]
        · exact hbuf
      have hcnt' : (if cnt < n then cnt + 1 else cnt) ≤ n := by
        split_ifs <;> omega
      obtain ⟨rl'', hok', hp'', hrest⟩ := ih hok hbuf' hcnt' hp'
      obtain ⟨hover, hlen⟩ := overwrite_char hbuf hcnt ch (firstLine bytes)
      refine ⟨rl'', hok', by simpa [firstLine, hch] using hp'', ?_⟩
      rw [if_neg hch, hrest, firstLine, if_neg hch, hover, hlen]

/-- A call returns the first line that is pending, cut to the size of the buffer, and stores it
without a null byte. -/
theorem readLineBuf_eq {n : ℕ} (hn : n ≠ 0) {rl : ReadLineBuf} (h : rl.Ok) {buffer : List Char}
    (hbuf : buffer.length = n) {bytes : List Char} (hp : rl.pending = bytes) :
    ∃ rl' : ReadLineBuf, rl'.Ok ∧ rl'.pending = bytes.drop (firstLine bytes).length ∧
      readLineBuf rl buffer n =
        ⟨((firstLine bytes).take n).length, overwrite buffer 0 ((firstLine bytes).take n),
          rl'⟩ := by
  obtain ⟨rl', hok, hp', hloop⟩ := readLineBufLoop_line h hbuf (Nat.zero_le n) hp
  refine ⟨rl', hok, hp', ?_⟩
  rw [readLineBuf, if_neg hn, hloop, Nat.zero_add, Nat.sub_zero]

/-! ## Successive calls -/

/-- The `i`-th line of a stream, empty behind its end. -/
def nthLine : ℕ → List Char → List Char
  | 0, bytes => firstLine bytes
  | i + 1, bytes => nthLine i (bytes.drop (firstLine bytes).length)

/-- The `i`-th of successive calls of `readLine()` on a stream that ends. -/
def readLines (n : ℕ) : ℕ → List Read → Option ReadLine
  | 0, reads => readLine ⟨reads, true⟩ n
  | i + 1, reads => (readLine ⟨reads, true⟩ n).bind fun r => readLines n i r.rest

/-- The `i`-th of successive calls of `readLineBuf()`, where each has a buffer of its own. -/
def readLineBufs (n : ℕ) : ℕ → (ℕ → List Char) → ReadLineBuf → LineBuf
  | 0, buffers, rl => readLineBuf rl (buffers 0) n
  | i + 1, buffers, rl =>
    readLineBufs n i (fun k => buffers (k + 1)) (readLineBuf rl (buffers 0) n).rlbuf

/-- What `readLine()` has stored for a line, nothing at end-of-file. -/
def terminated (n : ℕ) (line : List Char) : List Char :=
  if line = [] then [] else line.take (n - 1) ++ ['\x00']

theorem firstLine_eq_nil {bytes : List Char} (h : firstLine bytes = []) : bytes = [] := by
  cases bytes with
  | nil => rfl
  | cons ch bytes =>
    unfold firstLine at h
    split_ifs at h

theorem readLine_stream {n : ℕ} (hn : 2 ≤ n) {reads : List Read} {bytes : List Char}
    (h : Delivers reads bytes) :
    ∃ rest, Delivers rest (bytes.drop (firstLine bytes).length) ∧
      readLine ⟨reads, true⟩ n = some ⟨((firstLine bytes).take (n - 1)).length,
        terminated n (firstLine bytes), rest⟩ := by
  by_cases hbytes : bytes = []
  · subst hbytes
    have heof := @readLine_eof ⟨reads, true⟩ n (by omega) h rfl
    rw [heof]
    exact ⟨[], rfl, by simp [firstLine, terminated]⟩
  · have hne : firstLine bytes ≠ [] := fun hnil => hbytes (firstLine_eq_nil hnil)
    obtain ⟨rest, hrest, heq⟩ := @readLine_eq ⟨reads, true⟩ n hn bytes h (.inr ⟨rfl, hbytes⟩)
    rw [terminated, if_neg hne]
    exact ⟨rest, hrest, heq⟩

theorem readLines_eq {n : ℕ} (hn : 2 ≤ n) (i : ℕ) {reads : List Read} {bytes : List Char}
    (h : Delivers reads bytes) :
    ∃ rest, readLines n i reads = some ⟨((nthLine i bytes).take (n - 1)).length,
      terminated n (nthLine i bytes), rest⟩ := by
  induction i generalizing reads bytes with
  | zero =>
    obtain ⟨rest, -, heq⟩ := readLine_stream hn h
    exact ⟨rest, heq⟩
  | succ i ih =>
    obtain ⟨rest, hrest, heq⟩ := readLine_stream hn h
    rw [readLines, heq]
    exact ih hrest

theorem readLineBufInit_ok {blocks : List (List Char)}
    (h : ∀ b ∈ blocks, 1 ≤ b.length ∧ b.length ≤ RL_MAX_BUF) {rl : ReadLineBuf}
    (hrl : rl.buf.length = RL_MAX_BUF) : (readLineBufInit (blocks.map some) rl).Ok := by
  refine ⟨?_, hrl, le_rfl, Int.natCast_nonneg _⟩
  intro r hr
  obtain ⟨b, hb, rfl⟩ := List.mem_map.mp hr
  exact ⟨b, rfl, h b hb⟩

theorem readLineBufInit_pending (blocks : List (List Char)) (rl : ReadLineBuf) :
    (readLineBufInit (blocks.map some) rl).pending = blocks.flatten := by
  simp [ReadLineBuf.pending, readLineBufInit, List.filterMap_map]

theorem readLineBufs_eq {n : ℕ} (hn : n ≠ 0) (i : ℕ) {buffers : ℕ → List Char}
    (hbuf : ∀ k, (buffers k).length = n) {rl : ReadLineBuf} (h : rl.Ok) {bytes : List Char}
    (hp : rl.pending = bytes) :
    ∃ rl', readLineBufs n i buffers rl = ⟨((nthLine i bytes).take n).length,
      overwrite (buffers i) 0 ((nthLine i bytes).take n), rl'⟩ := by
  induction i generalizing buffers rl bytes with
  | zero =>
    obtain ⟨rl', -, -, heq⟩ := readLineBuf_eq hn h (hbuf 0) hp
    exact ⟨rl', heq⟩
  | succ i ih =>
    obtain ⟨rl', hok, hp', heq⟩ := readLineBuf_eq hn h (hbuf 0) hp
    rw [readLineBufs, heq]
    exact ih (fun k => hbuf (k + 1)) hok hp'

/-- The two functions agree on a line that is shorter than the buffer, if there happens to be a null
byte in the buffer at its end. -/
theorem agree_iff {n : ℕ} (hn : 2 ≤ n) {buffer : List Char} (hbuf : buffer.length = n)
    (line : List Char) :
    (((line.take n).length : ℤ) = (line.take (n - 1)).length ∧
        overwrite buffer 0 (line.take n) = overwrite buffer 0 (terminated n line)) ↔
      (line = [] ∨ line.length < n ∧ buffer[line.length]? = some '\x00') := by
  by_cases hline : line = []
  · subst hline
    simp [terminated]
  rw [terminated, if_neg hline]
  simp only [hline, false_or]
  by_cases hlt : line.length < n
  · have hfull : line.take n = line := List.take_of_length_le hlt.le
    have hcut : line.take (n - 1) = line := List.take_of_length_le (by omega)
    have hlen : line.length < buffer.length := by omega
    have hleft : overwrite buffer 0 line =
        line ++ buffer[line.length] :: buffer.drop (line.length + 1) := by
      rw [overwrite, List.take_zero, List.nil_append, Nat.zero_add, List.drop_eq_getElem_cons hlen]
    have hright : overwrite buffer 0 (line ++ ['\x00']) =
        line ++ '\x00' :: buffer.drop (line.length + 1) := by
      simp [overwrite]
    rw [hfull, hcut, hleft, hright, List.getElem?_eq_getElem hlen, List.append_cancel_left_eq,
      List.cons.injEq, Option.some.injEq]
    simp only [hlt, true_and, and_true]
  · have hlong : ((line.take n).length : ℤ) ≠ (line.take (n - 1)).length := by
      rw [List.length_take, List.length_take]
      omega
    simp only [hlong, hlt, false_and]

/-- Where the block reader and the byte reader of the same stream agree. -/
theorem readLineBuf_agrees_iff (blocks : List (List Char))
    (hblocks : ∀ b ∈ blocks, 1 ≤ b.length ∧ b.length ≤ RL_MAX_BUF) (rl : ReadLineBuf)
    (hrl : rl.buf.length = RL_MAX_BUF) (n : ℕ) (hn : 2 ≤ n) (buffers : ℕ → List Char)
    (hbuf : ∀ k, (buffers k).length = n) (i : ℕ) :
    let q := readLineBufs n i buffers (readLineBufInit (blocks.map some) rl)
    ∃ r, readLines n i (blocks.flatten.map .byte) = some r ∧
      ((q.ret = r.ret ∧ q.buffer = overwrite (buffers i) 0 r.buf) ↔
        (nthLine i blocks.flatten = [] ∨
          (nthLine i blocks.flatten).length < n ∧
            (buffers i)[(nthLine i blocks.flatten).length]? = some '\x00')) := by
  intro q
  have hok := readLineBufInit_ok hblocks hrl
  have hpend := readLineBufInit_pending blocks rl
  have hdel : Delivers (blocks.flatten.map .byte) blocks.flatten := by
    rw [Delivers, List.filter_eq_self]
    intro r hr
    obtain ⟨ch, -, rfl⟩ := List.mem_map.mp hr
    rfl
  obtain ⟨rest, hread⟩ := readLines_eq hn i hdel
  obtain ⟨rl', hreadBuf⟩ := readLineBufs_eq (n := n) (by omega) i hbuf hok hpend
  refine ⟨_, hread, ?_⟩
  rw [show q = _ from hreadBuf]
  exact agree_iff hn (hbuf i) _

/-- The structure before it is initialised. -/
def someBuf : ReadLineBuf := ⟨[], List.replicate RL_MAX_BUF 'x', 3, 7⟩

theorem readLineBuf_agrees_iff_zeroed :
    (∀ b ∈ ["ab".toList, "\ncd".toList], 1 ≤ b.length ∧ b.length ≤ RL_MAX_BUF) ∧
    ∃ r, readLines 8 0 ("ab\ncd".toList.map .byte) = some r ∧
      (readLineBufs 8 0 (fun _ => List.replicate 8 '\x00')
        (readLineBufInit (["ab".toList, "\ncd".toList].map some) someBuf)).ret = r.ret ∧
      (readLineBufs 8 0 (fun _ => List.replicate 8 '\x00')
        (readLineBufInit (["ab".toList, "\ncd".toList].map some) someBuf)).buffer =
          overwrite (List.replicate 8 '\x00') 0 r.buf := by
  have hblocks : ∀ b ∈ ["ab".toList, "\ncd".toList], 1 ≤ b.length ∧ b.length ≤ RL_MAX_BUF := by
    decide
  refine ⟨hblocks, ?_⟩
  obtain ⟨r, hr, hiff⟩ := readLineBuf_agrees_iff ["ab".toList, "\ncd".toList] hblocks someBuf rfl 8
    (by decide) (fun _ => List.replicate 8 '\x00') (fun _ => rfl) 0
  exact ⟨r, hr, hiff.mpr (.inr (by decide))⟩

/-- A line of two characters in a buffer of four bytes: `readLine()` puts a null byte behind it,
`readLineBuf()` does not. -/
theorem readLineBuf_misses_null :
    readLines 4 0 ("a\n".toList.map .byte) = some ⟨2, "a\n\x00".toList, []⟩ ∧
    (readLineBufs 4 0 (fun _ => "xxxx".toList)
      (readLineBufInit (["a\n".toList].map some) someBuf)).buffer = "a\nxx".toList ∧
    "a\nxx".toList ≠ overwrite "xxxx".toList 0 "a\n\x00".toList := by
  refine ⟨by decide, ?_, by decide⟩
  have hok : (readLineBufInit (["a\n".toList].map some) someBuf).Ok :=
    readLineBufInit_ok (by decide) rfl
  have hbuf : ∀ k, ((fun _ => "xxxx".toList : ℕ → List Char) k).length = 4 := fun _ => rfl
  obtain ⟨rl', heq⟩ := readLineBufs_eq (by decide) 0 hbuf hok (readLineBufInit_pending _ _)
  rw [heq]
  show overwrite "xxxx".toList 0 (List.take 4 (nthLine 0 ["a\n".toList].flatten)) = _
  decide

end Tlpi.Sockets
