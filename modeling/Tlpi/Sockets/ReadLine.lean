import Mathlib.Tactic

/-! `readLine()` of `sockets/read_line.c`, over what the `read()` calls on the descriptor return. -/

namespace Tlpi.Sockets

/-- What `read(fd, &ch, 1)` returns, when it is not end-of-file. -/
inductive Read
  | byte (ch : Char)
  | eintr
  | error
  deriving DecidableEq

/-- A descriptor: the results of the next `read()` calls, and whether end-of-file comes after them;
otherwise `read()` blocks. -/
structure Input where
  reads : List Read
  eof : Bool

/-- The value that `readLine()` returns, what it has stored in the buffer, and the reads left. -/
structure ReadLine where
  ret : ℤ
  buf : List Char
  rest : List Read
  deriving DecidableEq

/-- The loop of `readLine()`, which has stored `buf`; `none` if it blocks. -/
def readLoop (n : ℕ) (eof : Bool) : List Read → List Char → Option ReadLine
  | [], buf =>
    if eof then
      if buf.length = 0 then some ⟨0, buf, []⟩ else some ⟨buf.length, buf ++ ['\x00'], []⟩
    else none
  | .eintr :: reads, buf => readLoop n eof reads buf
  | .error :: reads, buf => some ⟨-1, buf, reads⟩
  | .byte ch :: reads, buf =>
    -- more than `n - 1` bytes are discarded
    let buf := if buf.length < n - 1 then buf ++ [ch] else buf
    if ch = '\n' then some ⟨buf.length, buf ++ ['\x00'], reads⟩ else readLoop n eof reads buf

def readLine (fd : Input) (n : ℕ) : Option ReadLine :=
  if n = 0 then some ⟨-1, [], fd.reads⟩ else readLoop n fd.eof fd.reads []

/-! ## Lines of a stream -/

/-- The reads deliver the bytes, with interrupted calls anywhere. -/
def Delivers (reads : List Read) (bytes : List Char) : Prop :=
  reads.filter (· ≠ .eintr) = bytes.map .byte

/-- The first line with its newline, if it has one. -/
def firstLine : List Char → List Char
  | [] => []
  | ch :: bytes => if ch = '\n' then [ch] else ch :: firstLine bytes

theorem delivers_nil {bytes : List Char} (h : Delivers [] bytes) : bytes = [] := by
  simpa [Delivers, eq_comm] using h

theorem delivers_eintr {reads : List Read} {bytes : List Char}
    (h : Delivers (.eintr :: reads) bytes) : Delivers reads bytes := by simpa [Delivers] using h

theorem not_delivers_error {reads : List Read} {bytes : List Char} :
    ¬ Delivers (.error :: reads) bytes := by
  cases bytes <;> simp [Delivers]

theorem delivers_byte {ch : Char} {reads : List Read} {bytes : List Char}
    (h : Delivers (.byte ch :: reads) bytes) :
    ∃ bytes', bytes = ch :: bytes' ∧ Delivers reads bytes' := by
  cases bytes with
  | nil => simp [Delivers] at h
  | cons c bytes' =>
    simp only [Delivers, ne_eq, reduceCtorEq, not_false_eq_true, decide_true,
      List.filter_cons_of_pos, List.map_cons, List.cons.injEq, Read.byte.injEq] at h
    exact ⟨bytes', by rw [h.1], h.2⟩

/-- One more byte goes to the buffer as long as there is room. -/
theorem take_concat_of_le {buf : List Char} (line : List Char) (ch : Char) {m : ℕ}
    (h : buf.length ≤ m) :
    ((if buf.length < m then buf ++ [ch] else buf) ++ line).take m =
      (buf ++ ch :: line).take m := by
  split_ifs with hlt
  · simp
  · rw [List.take_left' (by omega), List.take_left' (by omega)]

/-- The loop stores the rest of the line, as far as there is room, and ends behind it. -/
theorem readLoop_line {n : ℕ} (hn : 2 ≤ n) {eof : Bool} {reads : List Read} (buf : List Char)
    {bytes : List Char} (h : Delivers reads bytes)
    (hline : '\n' ∈ bytes ∨ eof = true ∧ buf ++ bytes ≠ []) (hbuf : buf.length ≤ n - 1) :
    ∃ rest, Delivers rest (bytes.drop (firstLine bytes).length) ∧
      readLoop n eof reads buf = some ⟨((buf ++ firstLine bytes).take (n - 1)).length,
        (buf ++ firstLine bytes).take (n - 1) ++ ['\x00'], rest⟩ := by
  induction reads generalizing buf bytes with
  | nil =>
    obtain rfl := delivers_nil h
    obtain ⟨heof, hne⟩ : eof = true ∧ buf ≠ [] := by simpa using hline
    refine ⟨[], h, ?_⟩
    simp [readLoop, heof, hne, firstLine, List.take_of_length_le hbuf]
  | cons r reads ih =>
    cases r with
    | eintr => exact ih buf (delivers_eintr h) hline hbuf
    | error => exact absurd h not_delivers_error
    | byte ch =>
      obtain ⟨bytes', rfl, h'⟩ := delivers_byte h
      have hroom : (if buf.length < n - 1 then buf ++ [ch] else buf).length ≤ n - 1 := by
        split_ifs with hlt
        · rw [List.length_append, List.length_singleton]
          omega
        · exact hbuf
      by_cases hch : ch = '\n'
      · refine ⟨reads, by simpa [firstLine, hch] using h', ?_⟩
        have hstored := take_concat_of_le [] ch hbuf
        rw [List.append_nil, List.take_of_length_le hroom] at hstored
        simp only [readLoop, hch, firstLine, if_true] at hstored ⊢
        rw [hstored]
      · have hline' : '\n' ∈ bytes' ∨ eof = true ∧
            (if buf.length < n - 1 then buf ++ [ch] else buf) ++ bytes' ≠ [] := by
          refine hline.imp (fun hmem => ?_) fun ⟨heof, _⟩ => ⟨heof, fun hnil => ?_⟩
          · exact (List.mem_cons.mp hmem).resolve_left (Ne.symm hch)
          · have hbuf0 := (List.append_eq_nil_iff.mp hnil).1
            split_ifs at hbuf0 with hlt
            · simp at hbuf0
            · simp [hbuf0] at hlt
              omega
        obtain ⟨rest, hrest, hloop⟩ := ih _ h' hline' hroom
        refine ⟨rest, by simpa [firstLine, hch] using hrest, ?_⟩
        simp only [readLoop, hch, if_false, firstLine, hloop, take_concat_of_le _ _ hbuf]

/-- A call returns the first line, cut to the size of the buffer, and reads on behind it. -/
theorem readLine_eq {fd : Input} {n : ℕ} (hn : 2 ≤ n) {bytes : List Char}
    (h : Delivers fd.reads bytes) (hline : '\n' ∈ bytes ∨ fd.eof = true ∧ bytes ≠ []) :
    ∃ rest, Delivers rest (bytes.drop (firstLine bytes).length) ∧
      readLine fd n = some ⟨((firstLine bytes).take (n - 1)).length,
        (firstLine bytes).take (n - 1) ++ ['\x00'], rest⟩ := by
  obtain ⟨rest, hrest, hloop⟩ := readLoop_line hn [] h hline (Nat.zero_le _)
  exact ⟨rest, hrest, by rw [readLine, if_neg (by omega)]; exact hloop⟩

/-- End-of-file comes before any byte. -/
theorem readLine_eof {fd : Input} {n : ℕ} (hn : n ≠ 0) (h : Delivers fd.reads [])
    (heof : fd.eof = true) : readLine fd n = some ⟨0, [], []⟩ := by
  have hloop : ∀ reads, Delivers reads [] → readLoop n fd.eof reads [] = some ⟨0, [], []⟩ := by
    intro reads
    induction reads with
    | nil => simp [readLoop, heof]
    | cons r reads ih =>
      intro hr
      cases r with
      | eintr => exact ih (delivers_eintr hr)
      | error => exact absurd hr not_delivers_error
      | byte ch =>
        obtain ⟨_, hnil, -⟩ := delivers_byte hr
        cases hnil
  rw [readLine, if_neg hn]
  exact hloop fd.reads h

theorem firstLine_line {line bytes : List Char} (h : '\n' ∉ line) :
    firstLine (line ++ '\n' :: bytes) = line ++ ['\n'] := by
  induction line with
  | nil => rfl
  | cons ch line ih =>
    obtain ⟨hch, hline⟩ := not_or.mp (List.mem_cons.not.mp h)
    rw [List.cons_append, firstLine, if_neg (Ne.symm hch), ih hline, List.cons_append]

end Tlpi.Sockets
