import Tlpi.Lib.Memory

/-! `readn()` and `writen()` of `sockets/rdwrn.c` under any schedule of partial transfers and
interruptions. -/

namespace Tlpi.Sockets.Rdwrn

open Lib.Memory

/-- What becomes of a `write()`, which transfers at most `k` bytes where it succeeds. -/
inductive Write
  | upTo (k : ℕ+)
  | zero
  | eintr
  | error
  deriving DecidableEq

/-- What becomes of a `read()`. One that succeeds returns 0 at the end of the stream only. -/
inductive Read
  | upTo (k : ℕ+)
  | eintr
  | error
  deriving DecidableEq

structure Writen where
  ret : ℤ
  file : List UInt8
  deriving DecidableEq

structure Readn where
  ret : ℤ
  mem : List UInt8
  stream : List UInt8
  deriving DecidableEq

/-- The loop of `writen()`; `none` while it has not returned, or if it leaves the memory `m`. -/
def writenLoop (m : List UInt8) (n : ℕ) : List Write → ℕ → ℕ → List UInt8 → Option Writen
  | [], totWritten, _, file => if totWritten < n then none else some ⟨totWritten, file⟩
  | w :: ws, totWritten, buf, file =>
    if totWritten < n then
      match w with
      | .eintr => writenLoop m n ws totWritten buf file
      | .zero => some ⟨-1, file⟩
      | .error => some ⟨-1, file⟩
      | .upTo k => (load m buf (n - totWritten)).bind fun data =>
        let numWritten := (data.take k).length
        writenLoop m n ws (totWritten + numWritten) (buf + numWritten) (file ++ data.take k)
    else some ⟨totWritten, file⟩

def writen (file : List UInt8) (m : List UInt8) (buffer n : ℕ) (ws : List Write) : Option Writen :=
  writenLoop m n ws 0 buffer file

/-- The loop of `readn()`; `none` while it has not returned, or if it leaves the memory `m`. -/
def readnLoop (n : ℕ) : List Read → ℕ → ℕ → List UInt8 → List UInt8 → Option Readn
  | [], totRead, _, m, stream => if totRead < n then none else some ⟨totRead, m, stream⟩
  | r :: rs, totRead, buf, m, stream =>
    if totRead < n then
      match r with
      | .eintr => readnLoop n rs totRead buf m stream
      | .error => some ⟨-1, m, stream⟩
      | .upTo k =>
        let numRead := (stream.take (min k (n - totRead))).length
        if numRead = 0 then some ⟨totRead, m, stream⟩
        else (store m buf (stream.take numRead)).bind fun m =>
          readnLoop n rs (totRead + numRead) (buf + numRead) m (stream.drop numRead)
    else some ⟨totRead, m, stream⟩

def readn (stream : List UInt8) (m : List UInt8) (buffer n : ℕ) (rs : List Read) : Option Readn :=
  readnLoop n rs 0 buffer m stream

/-! ## Writing -/

/-- The pointer, the total and the bytes that are to be written are in step. -/
structure Writing (m : List UInt8) (n totWritten buf : ℕ) (left : List UInt8) : Prop where
  holds : Holds m buf left
  total : totWritten + left.length = n
  room : buf + left.length ≤ m.length

section Writing

variable {m : List UInt8} {n totWritten buf : ℕ} {left : List UInt8}

theorem Writing.advance (h : Writing m n totWritten buf left) (k : ℕ) :
    Writing m n (totWritten + (left.take k).length) (buf + (left.take k).length)
      (left.drop k) := by
  have hlen : (left.take k).length + (left.drop k).length = left.length := by
    rw [← List.length_append, List.take_append_drop]
  have htotal := h.total
  have hroom := h.room
  have hsplit : Holds m buf (left.take k ++ left.drop k) := by
    rw [List.take_append_drop]
    exact h.holds
  exact ⟨hsplit.right, by omega, by omega⟩

theorem Writing.lt (h : Writing m n totWritten buf left) (hleft : left ≠ []) : totWritten < n := by
  have htotal := h.total
  have hpos : 0 < left.length := List.length_pos_iff.mpr hleft
  omega

theorem writenLoop_nil (h : Writing m n totWritten buf []) (ws : List Write)
    (file : List UInt8) : writenLoop m n ws totWritten buf file = some ⟨n, file⟩ := by
  have htotal : totWritten = n := h.total
  subst htotal
  cases ws <;> simp [writenLoop]

theorem writenLoop_upTo (h : Writing m n totWritten buf left) (hleft : left ≠ []) (k : ℕ+)
    (ws : List Write) (file : List UInt8) :
    writenLoop m n (.upTo k :: ws) totWritten buf file =
      writenLoop m n ws (totWritten + (left.take k).length) (buf + (left.take k).length)
        (file ++ left.take k) := by
  have hload : load m buf (n - totWritten) = some left := by
    rw [← h.total, Nat.add_sub_cancel_left]
    exact load_eq h.holds h.room
  rw [writenLoop, if_pos (h.lt hleft), hload, Option.bind_some]

/-- All the bytes are written in order, or some of them before a failure. Induction on the
schedule. -/
theorem writenLoop_spec (h : Writing m n totWritten buf left) {ws : List Write}
    {file : List UInt8} {r : Writen} (hr : writenLoop m n ws totWritten buf file = some r) :
    r = ⟨n, file ++ left⟩ ∨
      (.zero ∈ ws ∨ .error ∈ ws) ∧ ∃ sent, sent <+: left ∧ r = ⟨-1, file ++ sent⟩ := by
  induction ws generalizing totWritten buf left file with
  | nil =>
    by_cases hleft : left = []
    · subst hleft
      rw [writenLoop_nil h, Option.some.injEq] at hr
      exact .inl (by rw [← hr, List.append_nil])
    · rw [writenLoop, if_pos (h.lt hleft)] at hr
      cases hr
  | cons w ws ih =>
    by_cases hleft : left = []
    · subst hleft
      rw [writenLoop_nil h, Option.some.injEq] at hr
      exact .inl (by rw [← hr, List.append_nil])
    · cases w with
      | eintr =>
        rw [writenLoop, if_pos (h.lt hleft)] at hr
        have hrest := ih h hr
        simpa using hrest
      | zero =>
        rw [writenLoop, if_pos (h.lt hleft), Option.some.injEq] at hr
        exact .inr ⟨.inl List.mem_cons_self, [], List.nil_prefix, by rw [← hr, List.append_nil]⟩
      | error =>
        rw [writenLoop, if_pos (h.lt hleft), Option.some.injEq] at hr
        exact .inr ⟨.inr List.mem_cons_self, [], List.nil_prefix, by rw [← hr, List.append_nil]⟩
      | upTo k =>
        rw [writenLoop_upTo h hleft] at hr
        rcases ih (h.advance k) hr with hall | ⟨hfail, sent, hsent, hret⟩
        · rw [List.append_assoc, List.take_append_drop] at hall
          exact .inl hall
        · refine .inr ⟨?_, left.take k ++ sent, ?_, ?_⟩
          · exact hfail.imp (List.mem_cons_of_mem _) (List.mem_cons_of_mem _)
          · have hsent' := (List.prefix_append_right_inj (left.take k)).mpr hsent
            rwa [List.take_append_drop] at hsent'
          · rw [hret, List.append_assoc]

/-- Every call that is not interrupted writes a byte or is the last one. -/
theorem writenLoop_returns (h : Writing m n totWritten buf left) {ws : List Write}
    (hws : left.length ≤ (ws.filter (· ≠ .eintr)).length) (file : List UInt8) :
    (writenLoop m n ws totWritten buf file).isSome := by
  induction ws generalizing totWritten buf left file with
  | nil =>
    obtain rfl : left = [] := List.length_eq_zero_iff.mp (Nat.le_zero.mp hws)
    rw [writenLoop_nil h]
    rfl
  | cons w ws ih =>
    by_cases hleft : left = []
    · subst hleft
      rw [writenLoop_nil h]
      rfl
    · cases w with
      | eintr =>
        rw [writenLoop, if_pos (h.lt hleft)]
        exact ih h (by simpa using hws) file
      | zero =>
        rw [writenLoop, if_pos (h.lt hleft)]
        rfl
      | error =>
        rw [writenLoop, if_pos (h.lt hleft)]
        rfl
      | upTo k =>
        rw [writenLoop_upTo h hleft]
        apply ih (h.advance k)
        have hk := k.pos
        rw [List.filter_cons_of_pos (by simp), List.length_cons] at hws
        rw [List.length_drop]
        omega

end Writing

/-! ## Reading -/

/-- The first `j` bytes of the stream have gone to the memory at `buf`, and no others. -/
structure Filled (m : List UInt8) (buf : ℕ) (stream : List UInt8) (j : ℕ) (r : Readn) : Prop where
  holds : Holds r.mem buf (stream.take j)
  frame : Frame m r.mem buf (stream.take j).length
  consumed : r.stream = stream.drop j

section Reading

variable {n totRead buf : ℕ} {m stream : List UInt8}

theorem filled_zero (ret : ℤ) : Filled m buf stream 0 ⟨ret, m, stream⟩ :=
  ⟨fun i hi => absurd hi (Nat.not_lt_zero i), Frame.refl m buf _, rfl⟩

/-- At the end of the stream. -/
theorem Filled.eof {r : Readn} (h : Filled m buf [] 0 r) (j : ℕ) : Filled m buf [] j r := by
  obtain ⟨hholds, hframe, hcons⟩ := h
  refine ⟨?_, ?_, ?_⟩
  · rwa [List.take_nil]
  · rwa [List.take_nil]
  · rwa [List.drop_nil]

/-- One `read()` and those after it. -/
theorem Filled.store {m' : List UInt8} {j k : ℕ} {r : Readn} (hk : (stream.take k).length = k)
    (hstore : store m buf (stream.take k) = some m')
    (h : Filled m' (buf + k) (stream.drop k) j r) : Filled m buf stream (k + j) r := by
  obtain ⟨hframe, hholds⟩ := store_some hstore
  have hsplit : stream.take (k + j) = stream.take k ++ (stream.drop k).take j := List.take_add
  have hlen : (stream.take (k + j)).length = k + ((stream.drop k).take j).length := by
    rw [hsplit, List.length_append, hk]
  refine ⟨?_, ?_, ?_⟩
  · rw [hsplit]
    apply Holds.append (hholds.frame h.frame (.inl (by omega)))
    rw [hk]
    exact h.holds
  · rw [hlen]
    apply Frame.trans (hframe.mono le_rfl (by omega))
    exact h.frame.mono (by omega) (by omega)
  · rw [h.consumed, List.drop_drop]

theorem readnLoop_done (hdone : ¬ totRead < n) (rs : List Read) (m stream : List UInt8) :
    readnLoop n rs totRead buf m stream = some ⟨totRead, m, stream⟩ := by
  cases rs with
  | nil => rw [readnLoop, if_neg hdone]
  | cons o rs => cases o <;> rw [readnLoop, if_neg hdone]

theorem filled_done (hdone : ¬ totRead < n) {rs : List Read} {r : Readn}
    (hr : readnLoop n rs totRead buf m stream = some r) :
    r.ret = (totRead + min (n - totRead) stream.length : ℕ) ∧
      Filled m buf stream (n - totRead) r := by
  have hzero : n - totRead = 0 := by omega
  rw [readnLoop_done hdone, Option.some.injEq] at hr
  subst hr
  rw [hzero, Nat.zero_min, Nat.add_zero]
  exact ⟨rfl, filled_zero _⟩

theorem readnLoop_eof (hlt : totRead < n) (k : ℕ+) (rs : List Read) :
    readnLoop n (.upTo k :: rs) totRead buf m [] = some ⟨totRead, m, []⟩ := by
  rw [readnLoop, if_pos hlt]
  simp

theorem readnLoop_upTo (hlt : totRead < n) (hroom : buf + (n - totRead) ≤ m.length)
    (hstream : stream ≠ []) (k : ℕ+) (rs : List Read) :
    ∃ d m', 1 ≤ d ∧ totRead + d ≤ n ∧ (stream.take d).length = d ∧ m'.length = m.length ∧
      store m buf (stream.take d) = some m' ∧
      readnLoop n (.upTo k :: rs) totRead buf m stream =
        readnLoop n rs (totRead + d) (buf + d) m' (stream.drop d) := by
  have hk := k.pos
  have hpos : 0 < stream.length := List.length_pos_iff.mpr hstream
  obtain ⟨d, hd⟩ : ∃ d, d = min (min (k : ℕ) (n - totRead)) stream.length := ⟨_, rfl⟩
  have hread : (stream.take (min (k : ℕ) (n - totRead))).length = d :=
    List.length_take.trans hd.symm
  have hlen : (stream.take d).length = d := by
    rw [List.length_take]
    omega
  have hfits : buf + (stream.take d).length ≤ m.length := by omega
  obtain ⟨m', hstore, hframe, -⟩ := store_spec hfits
  refine ⟨d, m', by omega, by omega, hlen, hframe.length, hstore, ?_⟩
  rw [readnLoop, if_pos hlt]
  simp only [hread]
  rw [if_neg (by omega), hstore, Option.bind_some]

/-- As much of the stream as there is room for has been read, or less before an error. Induction on
the schedule. -/
theorem readnLoop_spec (htot : totRead ≤ n) (hroom : buf + (n - totRead) ≤ m.length)
    {rs : List Read} {r : Readn} (hr : readnLoop n rs totRead buf m stream = some r) :
    (r.ret = (totRead + min (n - totRead) stream.length : ℕ) ∧
        Filled m buf stream (n - totRead) r) ∨
      (r.ret = -1 ∧ .error ∈ rs ∧ ∃ j ≤ n - totRead, Filled m buf stream j r) := by
  induction rs generalizing totRead buf m stream with
  | nil =>
    by_cases hlt : totRead < n
    · rw [readnLoop, if_pos hlt] at hr
      cases hr
    · exact .inl (filled_done hlt hr)
  | cons o rs ih =>
    by_cases hlt : totRead < n
    · cases o with
      | eintr =>
        rw [readnLoop, if_pos hlt] at hr
        exact (ih htot hroom hr).imp_right fun h => ⟨h.1, List.mem_cons_of_mem _ h.2.1, h.2.2⟩
      | error =>
        rw [readnLoop, if_pos hlt, Option.some.injEq] at hr
        subst hr
        exact .inr ⟨rfl, List.mem_cons_self, 0, Nat.zero_le _, filled_zero _⟩
      | upTo k =>
        by_cases hstream : stream = []
        · subst hstream
          rw [readnLoop_eof hlt, Option.some.injEq] at hr
          subst hr
          exact .inl ⟨by simp, (filled_zero _).eof _⟩
        · obtain ⟨d, m', hd, hle, hlen, hm', hstore, hnext⟩ :=
            readnLoop_upTo hlt hroom hstream k rs
          rw [hnext] at hr
          have hdrop : d ≤ stream.length := by
            rw [List.length_take] at hlen
            omega
          rcases ih hle (by omega) hr with ⟨hret, hfill⟩ | ⟨hret, herr, j, hj, hfill⟩
          · refine .inl ⟨?_, ?_⟩
            · rw [hret, List.length_drop]
              congr 1
              omega
            · have hall := Filled.store hlen hstore hfill
              rwa [show d + (n - (totRead + d)) = n - totRead by omega] at hall
          · exact .inr ⟨hret, List.mem_cons_of_mem _ herr, d + j, by omega,
              Filled.store hlen hstore hfill⟩
    · exact .inl (filled_done hlt hr)

theorem readnLoop_returns (hroom : buf + (n - totRead) ≤ m.length) {rs : List Read}
    (hrs : n - totRead ≤ (rs.filter (· ≠ .eintr)).length) :
    (readnLoop n rs totRead buf m stream).isSome := by
  induction rs generalizing totRead buf m stream with
  | nil =>
    have hdone : ¬ totRead < n := by
      rw [List.filter_nil, List.length_nil] at hrs
      omega
    rw [readnLoop_done hdone]
    rfl
  | cons o rs ih =>
    by_cases hlt : totRead < n
    · cases o with
      | eintr =>
        rw [readnLoop, if_pos hlt]
        exact ih hroom (by simpa using hrs)
      | error =>
        rw [readnLoop, if_pos hlt]
        rfl
      | upTo k =>
        by_cases hstream : stream = []
        · rw [hstream, readnLoop_eof hlt]
          rfl
        · obtain ⟨d, m', hd, hle, -, hm', -, hnext⟩ := readnLoop_upTo hlt hroom hstream k rs
          rw [List.filter_cons_of_pos (by simp), List.length_cons] at hrs
          rw [hnext]
          exact ih (by omega) (by omega)
    · rw [readnLoop_done hlt]
      rfl

end Reading

/-- Both functions are exact under every schedule: they return after as many calls as there are
bytes, not counting the interrupted ones, and what has been written in one schedule is read back in
any other. -/
theorem readn_writen_exact (m m' : List UInt8) (buffer buffer' n : ℕ)
    (hm : buffer + n ≤ m.length) (hm' : buffer' + n ≤ m'.length) (ws : List Write)
    (rs : List Read) :
    let bytes := (m.drop buffer).take n
    (∀ file,
      (n ≤ (ws.filter (· ≠ .eintr)).length → (writen file m buffer n ws).isSome) ∧
      ∀ w, writen file m buffer n ws = some w →
        w = ⟨n, file ++ bytes⟩ ∨
          (.zero ∈ ws ∨ .error ∈ ws) ∧ ∃ sent, sent <+: bytes ∧ w = ⟨-1, file ++ sent⟩) ∧
    (∀ stream,
      (n ≤ (rs.filter (· ≠ .eintr)).length → (readn stream m' buffer' n rs).isSome) ∧
      ∀ r, readn stream m' buffer' n rs = some r →
        (r.ret = (min n stream.length : ℕ) ∧ Filled m' buffer' stream n r) ∨
          (r.ret = -1 ∧ .error ∈ rs ∧ ∃ j ≤ n, Filled m' buffer' stream j r)) ∧
    ∀ w more r, writen [] m buffer n ws = some w → w.ret = n → .error ∉ rs →
      readn (w.file ++ more) m' buffer' n rs = some r →
        r.ret = n ∧ Holds r.mem buffer' bytes ∧ r.stream = more := by
  intro bytes
  have hlen : bytes.length = n := by
    rw [List.length_take, List.length_drop]
    omega
  have hstart : Writing m n 0 buffer bytes := by
    refine ⟨?_, by omega, by omega⟩
    intro i hi
    rw [List.getElem?_take_of_lt (by omega), List.getElem?_drop]
  refine ⟨?_, ?_, ?_⟩
  · intro file
    refine ⟨fun hws => writenLoop_returns hstart (by omega) file, ?_⟩
    intro w hw
    exact writenLoop_spec hstart hw
  · intro stream
    refine ⟨fun hrs => readnLoop_returns hm' hrs, ?_⟩
    intro r hr
    have hspec := readnLoop_spec (Nat.zero_le n) hm' hr
    rwa [Nat.zero_add, Nat.sub_zero] at hspec
  · intro w more r hw hret herr hr
    rcases writenLoop_spec hstart hw with rfl | ⟨-, _, -, rfl⟩
    · rcases readnLoop_spec (Nat.zero_le n) hm' hr with ⟨hret', hfill⟩ | ⟨-, herr', -⟩
      · have htake : (bytes ++ more).take n = bytes := List.take_left' hlen
        have hdrop : (bytes ++ more).drop n = more := List.drop_left' hlen
        obtain ⟨hholds, -, hcons⟩ := hfill
        rw [List.nil_append, Nat.sub_zero, htake] at hholds
        rw [List.nil_append, Nat.sub_zero, hdrop] at hcons
        refine ⟨?_, hholds, hcons⟩
        have hall : n ≤ (bytes ++ more).length := by
          rw [List.length_append]
          omega
        rw [hret', Nat.zero_add, Nat.sub_zero]
        exact congrArg Nat.cast (Nat.min_eq_left hall)
      · exact absurd herr' herr
    · cases hret

/-- Three bytes in three writes, read back in two reads. -/
theorem readn_writen_exact_three :
    (writen [] [9, 1, 2, 3] 1 3 [.upTo 1, .eintr, .upTo 1, .upTo 5] = some ⟨3, [1, 2, 3]⟩ ∧
      readn [1, 2, 3] [0, 0, 0] 0 3 [.eintr, .upTo 2, .upTo 2] = some ⟨3, [1, 2, 3], []⟩) ∧
    Holds [1, 2, 3] 0 (([9, 1, 2, 3].drop 1).take 3 : List UInt8) := by
  have hrun : writen [] [9, 1, 2, 3] 1 3 [.upTo 1, .eintr, .upTo 1, .upTo 5] =
      some ⟨3, [1, 2, 3]⟩ := by decide
  have hrun' : readn [1, 2, 3] [0, 0, 0] 0 3 [.eintr, .upTo 2, .upTo 2] =
      some ⟨3, [1, 2, 3], []⟩ := by decide
  obtain ⟨-, -, hback⟩ := readn_writen_exact [9, 1, 2, 3] [0, 0, 0] 1 0 3 (by decide) (by decide)
    [.upTo 1, .eintr, .upTo 1, .upTo 5] [.eintr, .upTo 2, .upTo 2]
  obtain ⟨-, hholds, -⟩ := hback _ [] _ hrun rfl (by decide) hrun'
  exact ⟨⟨hrun, hrun'⟩, hholds⟩

end Tlpi.Sockets.Rdwrn
