import Tlpi.Lib.CopyLoop
import Tlpi.Lib.Counting
import Tlpi.Lib.Machine
import Tlpi.Lib.Memory
import Tlpi.Lib.Progress
import Mathlib.Tactic

/-! The processes of `altio/select_mq.c`: one child for each message queue copies its messages to a
pipe that they all share, and the parent takes them apart again. The messages that others send and
the text typed at the terminal come in any order and at any time; the two lists of them are finite,
and the terminal is never at its end. -/

namespace Tlpi.Altio.SelectMq
open Lib Lib.Memory

/-- `BUF_SIZE`. -/
def bufSize : ℕ := 200

/-- `MAX_MTEXT`. -/
def maxMtext : ℕ := 400

/-- `offsetof(struct pbuf, mtext)`, with an `int` of four bytes and a `long` of eight. -/
def headerSize : ℕ := 16

/-- `PIPE_BUF`. -/
def pipeBuf : ℕ := 4096

structure Message where
  mtype : BitVec 64
  mtext : List UInt8
  deriving DecidableEq

/-- The bytes of `struct pbuf` that a child writes. -/
def pbufHeader (msqid : BitVec 32) (m : Message) : List UInt8 :=
  intBytes msqid ++ intBytes (BitVec.ofNat 32 m.mtext.length) ++ leBytes 8 m.mtype.toNat

def pbuf (msqid : BitVec 32) (m : Message) : List UInt8 := pbufHeader msqid m ++ m.mtext

/-- The parent's `struct pbuf`. -/
structure Pmsg where
  header : List UInt8
  mtext : List UInt8

namespace Pmsg

def msqid (p : Pmsg) : BitVec 32 := ofIntBytes (p.header.take 4)
def len (p : Pmsg) : BitVec 32 := ofIntBytes ((p.header.drop 4).take 4)
def mtype (p : Pmsg) : BitVec 64 := BitVec.ofNat 64 (leValue ((p.header.drop 8).take 8))

end Pmsg

/-- Bytes read into a buffer replace only as many as there are. -/
def overwrite (buf bytes : List UInt8) : List UInt8 := bytes ++ buf.drop bytes.length

inductive Line
  | terminal (text : List UInt8)
  | mq (msqid : BitVec 32) (mtype : BitVec 64) (len : BitVec 32) (text : List UInt8)
  deriving DecidableEq

/-- A string in a buffer ends at its first null byte. -/
def cstr (buf : List UInt8) : List UInt8 := buf.takeWhile (· ≠ 0)

inductive ChildPc
  | receive
  | write (m : Message)
  /-- `msgrcv()` has failed with `E2BIG`. -/
  | failed
  deriving DecidableEq

inductive ParentPc
  | select
  /-- The terminal is ready; `pipeReady` is what `select()` says of the pipe. -/
  | terminal (pipeReady : Bool)
  | header
  | mtext
  /-- `fatal("EOF on pipe")`. -/
  | failed
  deriving DecidableEq

structure State (n : ℕ) where
  /-- The messages that are yet to be sent. -/
  toSend : List (Fin n × Message)
  queues : Fin n → List Message
  children : Fin n → ChildPc
  pipe : List UInt8
  /-- The text that is yet to be typed. -/
  toType : List (List UInt8)
  tty : List UInt8
  parent : ParentPc
  pmsg : Pmsg
  out : List Line
  /-- The messages that the children have written to the pipe, in the order of the writes. -/
  written : List (Fin n × Message)

inductive Act (n : ℕ)
  | msgsnd
  | type
  | msgrcv (j : Fin n)
  | write (j : Fin n)
  | select
  | readTerminal (k : ℕ)
  | readHeader
  | readMtext

variable {n : ℕ}

/-- The parent and its children at the tops of their loops. -/
def start (toSend : List (Fin n × Message)) (toType : List (List UInt8)) (pmsg : Pmsg) :
    State n where
  toSend := toSend
  queues := fun _ => []
  children := fun _ => .receive
  pipe := []
  toType := toType
  tty := []
  parent := .select
  pmsg := pmsg
  out := []
  written := []

/-- The world outside: a message is sent, some text is typed. -/
def outsideStep (s : State n) : Act n → Option (State n)
  | .msgsnd =>
    match s.toSend with
    | (j, m) :: rest =>
      some { s with toSend := rest, queues := Function.update s.queues j (s.queues j ++ [m]) }
    | [] => none
  | .type =>
    match s.toType with
    | text :: rest => some { s with toType := rest, tty := s.tty ++ text }
    | [] => none
  | _ => none

/-- `childMon()`. -/
def childStep (msqid : Fin n → BitVec 32) (cap : ℕ) (s : State n) : Act n → Option (State n)
  | .msgrcv j =>
    match s.children j, s.queues j with
    | .receive, m :: rest =>
      -- a message that is too long stays in the queue
      if maxMtext < m.mtext.length then
        some { s with children := Function.update s.children j .failed }
      else
        some { s with
          queues := Function.update s.queues j rest
          children := Function.update s.children j (.write m) }
    | _, _ => none
  | .write j =>
    match s.children j with
    | .write m =>
      -- the children have the read end open too, so the pipe never is without a reader
      (writeAtomic cap (pbuf (msqid j) m) s.pipe).map fun pipe =>
        { s with
          pipe := pipe
          children := Function.update s.children j .receive
          written := s.written ++ [(j, m)] }
    | _ => none
  | _ => none

/-- The line for what was read from the terminal, with a newline if the text has none at its end. -/
def terminalLine (buf : List UInt8) : Line :=
  .terminal (cstr buf ++ if buf.getLast? = some 10 then [] else [10])

/-- The loop of `main()`. -/
def parentStep (s : State n) : Act n → Option (State n)
  | .select =>
    if s.parent = .select then
      if s.tty ≠ [] then some { s with parent := .terminal (s.pipe ≠ []) }
      else if s.pipe ≠ [] then some { s with parent := .header }
      else none
    else none
  | .readTerminal k =>
    match s.parent with
    | .terminal pipeReady => (takeBlock (bufSize - 1) k s.tty).map fun r =>
        { s with
          tty := r.2
          out := s.out ++ [terminalLine r.1]
          parent := if pipeReady then .header else .select }
    | _ => none
  | .readHeader =>
    -- the parent has the write end open itself, so an empty pipe is not at its end
    if s.parent = .header then (readAvailable headerSize s.pipe).map fun r =>
      { s with
        pipe := r.2
        pmsg := { s.pmsg with header := overwrite s.pmsg.header r.1 }
        parent := .mtext }
    else none
  | .readMtext =>
    if s.parent = .mtext then
      -- a read of no bytes returns 0, which is taken for the end of the file
      if s.pmsg.len = 0 then some { s with parent := .failed }
      else (readAvailable (s.pmsg.len.signExtend 64).toNat s.pipe).map fun r =>
        let mtext := overwrite s.pmsg.mtext r.1
        { s with
          pipe := r.2
          pmsg := { s.pmsg with mtext := mtext }
          out := s.out ++ [.mq s.pmsg.msqid s.pmsg.mtype s.pmsg.len
            (cstr (mtext.take (s.pmsg.len.signExtend 64).toNat))]
          parent := .select }
    else none
  | _ => none

def machine (msqid : Fin n → BitVec 32) (cap : ℕ) (toSend : List (Fin n × Message))
    (toType : List (List UInt8)) : Machine (State n) (Act n) where
  init s := ∃ pmsg, pmsg.header.length = headerSize ∧ s = start toSend toType pmsg
  step s a := ((outsideStep s a).or (childStep msqid cap s a)).or (parentStep s a)

/-! ## The format of a message in the pipe -/

theorem length_pbufHeader (msqid : BitVec 32) (m : Message) :
    (pbufHeader msqid m).length = headerSize := by
  simp [pbufHeader, headerSize]

theorem pbufHeader_ne_nil (msqid : BitVec 32) (m : Message) : pbufHeader msqid m ≠ [] := fun h =>
  absurd (length_pbufHeader msqid m) (by simp [h, headerSize])

theorem pbuf_ne_nil (msqid : BitVec 32) (m : Message) : pbuf msqid m ≠ [] := fun h =>
  pbufHeader_ne_nil msqid m (List.append_eq_nil_iff.mp h).1

theorem length_pbuf {m : Message} (h : m.mtext.length ≤ maxMtext) (msqid : BitVec 32) :
    (pbuf msqid m).length ≤ pipeBuf := by
  rw [pbuf, List.length_append, length_pbufHeader]
  simp only [headerSize, maxMtext, pipeBuf] at *
  omega

section Header
variable {p : Pmsg} {msqid : BitVec 32} {m : Message} (h : p.header = pbufHeader msqid m)
include h

theorem msqid_of_header : p.msqid = msqid := by
  have htake : p.header.take 4 = intBytes msqid := by
    rw [h, pbufHeader, List.append_assoc, List.take_left' (length_intBytes _)]
  rw [Pmsg.msqid, htake, ofIntBytes_intBytes]

theorem len_of_header : p.len = BitVec.ofNat 32 m.mtext.length := by
  have htake : (p.header.drop 4).take 4 = intBytes (BitVec.ofNat 32 m.mtext.length) := by
    rw [h, pbufHeader, List.append_assoc, List.drop_left' (length_intBytes _),
      List.take_left' (length_intBytes _)]
  rw [Pmsg.len, htake, ofIntBytes_intBytes]

theorem mtype_of_header : p.mtype = m.mtype := by
  have hlen : (intBytes msqid ++ intBytes (BitVec.ofNat 32 m.mtext.length)).length = 8 := by simp
  have htake : (p.header.drop 8).take 8 = leBytes 8 m.mtype.toNat := by
    rw [h, pbufHeader, List.drop_left' hlen, List.take_of_length_le (by simp)]
  rw [Pmsg.mtype, htake, leValue_leBytes_of_lt m.mtype.isLt, BitVec.ofNat_toNat,
    BitVec.setWidth_eq]

theorem len_eq_zero_of_header (hfits : m.mtext.length ≤ maxMtext) :
    p.len = 0 ↔ m.mtext = [] := by
  simp only [maxMtext] at hfits
  rw [len_of_header h, ← List.length_eq_zero_iff, ← BitVec.toNat_inj, BitVec.toNat_ofNat,
    Nat.mod_eq_of_lt (by omega)]
  rfl

theorem toNat_len_of_header (hfits : m.mtext.length ≤ maxMtext) :
    (p.len.signExtend 64).toNat = m.mtext.length := by
  simp only [maxMtext] at hfits
  have htoNat : p.len.toNat = m.mtext.length := by
    rw [len_of_header h, BitVec.toNat_ofNat, Nat.mod_eq_of_lt (by omega)]
  have hmsb : p.len.msb = false := BitVec.msb_eq_false_iff_two_mul_lt.mpr (by omega)
  rw [BitVec.signExtend_eq_setWidth_of_msb_false hmsb, BitVec.toNat_setWidth, htoNat,
    Nat.mod_eq_of_lt (by omega)]

end Header

/-! ## The invariant -/

/-- What stands for a message in the pipe. -/
def frame (msqid : Fin n → BitVec 32) (x : Fin n × Message) : List UInt8 := pbuf (msqid x.1) x.2

/-- What is to be printed for a message. -/
def line (msqid : Fin n → BitVec 32) (x : Fin n × Message) : Line :=
  .mq (msqid x.1) x.2.mtype (BitVec.ofNat 32 x.2.mtext.length) (cstr x.2.mtext)

def Line.isMq : Line → Bool
  | .mq .. => true
  | .terminal _ => false

/-- The messages of a list that are for one queue. -/
def sentTo (j : Fin n) (l : List (Fin n × Message)) : List Message :=
  (l.filter fun x => x.1 = j).map Prod.snd

/-- The message that a child has received and not written. -/
def ChildPc.held : ChildPc → List Message
  | .write m => [m]
  | _ => []

/-- The parent has printed the messages `done` and has yet to print those of `pending`. -/
structure Decodes (msqid : Fin n → BitVec 32) (s : State n)
    (done pending : List (Fin n × Message)) :
    Prop where
  written : s.written = done ++ pending
  printed : s.out.filter Line.isMq = done.map (line msqid)
  nonempty : ∀ x ∈ done, x.2.mtext ≠ []
  header : s.pmsg.header.length = headerSize
  pipe : s.parent ≠ .mtext → s.parent ≠ .failed → s.pipe = pending.flatMap (frame msqid)
  mtext : s.parent = .mtext → ∃ x rest, pending = x :: rest ∧
    s.pmsg.header = pbufHeader (msqid x.1) x.2 ∧ s.pipe = x.2.mtext ++ rest.flatMap (frame msqid)
  failed : s.parent = .failed → ∃ x rest, pending = x :: rest ∧ x.2.mtext = []

structure Inv (msqid : Fin n → BitVec 32) (toSend : List (Fin n × Message)) (s : State n) :
    Prop where
  order : ∀ j, sentTo j s.written ++ (s.children j).held ++ s.queues j ++ sentTo j s.toSend =
    sentTo j toSend
  child_fits : ∀ j m, s.children j = .write m → m.mtext.length ≤ maxMtext
  child_failed : ∀ j, s.children j = .failed →
    ∃ m rest, s.queues j = m :: rest ∧ maxMtext < m.mtext.length
  fits : ∀ x ∈ s.written, x.2.mtext.length ≤ maxMtext
  decodes : ∃ done pending, Decodes msqid s done pending
  pipe_ready : s.parent = .header ∨ s.parent = .terminal true → s.pipe ≠ []
  tty_ready : ∀ b, s.parent = .terminal b → s.tty ≠ []

variable {msqid : Fin n → BitVec 32} {cap : ℕ} {toSend : List (Fin n × Message)}
  {toType : List (List UInt8)} {s s' : State n}

theorem inv_start {pmsg : Pmsg} (h : pmsg.header.length = headerSize) :
    Inv msqid toSend (start toSend toType pmsg) where
  order _ := rfl
  child_fits _ _ hc := ChildPc.noConfusion hc
  child_failed _ hc := ChildPc.noConfusion hc
  fits _ hx := absurd hx List.not_mem_nil
  decodes := ⟨[], [], rfl, rfl, fun _ hx => absurd hx List.not_mem_nil, h, fun _ _ => rfl,
    fun hp => ParentPc.noConfusion hp, fun hp => ParentPc.noConfusion hp⟩
  pipe_ready hp := hp.elim (fun hp => ParentPc.noConfusion hp) fun hp => ParentPc.noConfusion hp
  tty_ready _ hp := ParentPc.noConfusion hp

theorem sentTo_nil (j : Fin n) : sentTo j [] = [] := rfl

theorem sentTo_cons_self (j : Fin n) (m : Message) (l : List (Fin n × Message)) :
    sentTo j ((j, m) :: l) = m :: sentTo j l := by
  simp [sentTo]

theorem sentTo_cons_of_ne {i j : Fin n} (h : i ≠ j) (m : Message) (l : List (Fin n × Message)) :
    sentTo j ((i, m) :: l) = sentTo j l := by
  simp [sentTo, h]

theorem sentTo_append (j : Fin n) (l l' : List (Fin n × Message)) :
    sentTo j (l ++ l') = sentTo j l ++ sentTo j l' := by
  simp [sentTo]

theorem inv_outside (h : Inv msqid toSend s) {a : Act n} (ha : outsideStep s a = some s') :
    Inv msqid toSend s' := by
  cases a with
  | msgsnd =>
    simp only [outsideStep] at ha
    cases hs : s.toSend with
    | nil => simp [hs] at ha
    | cons x rest =>
      obtain ⟨i, m⟩ := x
      rw [hs] at ha
      obtain rfl := Option.some.inj ha
      obtain ⟨done, pending, hd⟩ := h.decodes
      refine { h with order := fun j => ?_, child_failed := fun j hc => ?_, decodes :=
        ⟨done, pending, { hd with }⟩ }
      · have horder := h.order j
        rw [hs] at horder
        by_cases hj : i = j
        · subst hj
          rw [sentTo_cons_self] at horder
          simpa using horder
        · rw [sentTo_cons_of_ne hj] at horder
          simpa [Function.update_of_ne (Ne.symm hj)] using horder
      · obtain ⟨m', rest', hq, hlong⟩ := h.child_failed j hc
        by_cases hj : j = i
        · subst hj
          exact ⟨m', rest' ++ [m], by simp [hq], hlong⟩
        · exact ⟨m', rest', by simpa [Function.update_of_ne hj] using hq, hlong⟩
  | type =>
    simp only [outsideStep] at ha
    cases ht : s.toType with
    | nil => simp [ht] at ha
    | cons text rest =>
      rw [ht] at ha
      obtain rfl := Option.some.inj ha
      obtain ⟨done, pending, hd⟩ := h.decodes
      refine { h with decodes := ⟨done, pending, { hd with }⟩, tty_ready := fun b hp => ?_ }
      simp [h.tty_ready b hp]
  | _ => exact absurd ha (by simp [outsideStep])

/-- A child changes hands without a write to the pipe. -/
theorem inv_child (h : Inv msqid toSend s) (i : Fin n) (pc : ChildPc) (queue : List Message)
    (horder : pc.held ++ queue = (s.children i).held ++ s.queues i)
    (hfits : ∀ m, pc = .write m → m.mtext.length ≤ maxMtext)
    (hfailed : pc = .failed → ∃ m rest, queue = m :: rest ∧ maxMtext < m.mtext.length) :
    Inv msqid toSend { s with
      queues := Function.update s.queues i queue,
      children := Function.update s.children i pc } := by
  obtain ⟨done, pending, hd⟩ := h.decodes
  refine { h with order := fun j => ?_, child_fits := fun j => ?_, child_failed := fun j => ?_,
                  decodes := ⟨done, pending, { hd with }⟩ }
  all_goals by_cases hj : j = i
  · subst hj
    have hold := h.order j
    simp only [List.append_assoc] at hold
    simp only [Function.update_self, List.append_assoc]
    rw [← List.append_assoc pc.held, horder, List.append_assoc]
    exact hold
  · simpa only [Function.update_of_ne hj] using h.order j
  · subst hj
    simpa only [Function.update_self] using hfits
  · simpa only [Function.update_of_ne hj] using h.child_fits j
  · subst hj
    simpa only [Function.update_self] using hfailed
  · simpa only [Function.update_of_ne hj] using h.child_failed j

/-- A child adds the frame of its message to the end of the pipe. -/
theorem inv_write (h : Inv msqid toSend s) {i : Fin n} {m : Message}
    (hc : s.children i = .write m) :
    Inv msqid toSend { s with
      pipe := s.pipe ++ pbuf (msqid i) m
      children := Function.update s.children i .receive
      written := s.written ++ [(i, m)] } := by
  obtain ⟨done, pending, hd⟩ := h.decodes
  have hm := h.child_fits i m hc
  refine { h with order := fun j => ?_, child_fits := fun j => ?_, child_failed := fun j => ?_,
                  fits := fun x hx => ?_, decodes := ⟨done, pending ++ [(i, m)], ?_⟩,
                  pipe_ready := fun _ => ?_ }
  · have hold := h.order j
    by_cases hj : j = i
    · subst hj
      simp only [hc, ChildPc.held] at hold
      simpa [sentTo_append, sentTo_cons_self, ChildPc.held, sentTo_nil] using hold
    · simpa [sentTo_append, sentTo_cons_of_ne (Ne.symm hj), Function.update_of_ne hj, sentTo_nil]
        using hold
  · by_cases hj : j = i
    · subst hj
      simp
    · simpa only [Function.update_of_ne hj] using h.child_fits j
  · by_cases hj : j = i
    · subst hj
      simp
    · simpa only [Function.update_of_ne hj] using h.child_failed j
  · rcases List.mem_append.mp hx with hx | hx
    · exact h.fits x hx
    · rw [List.mem_singleton.mp hx]
      exact hm
  · refine { hd with written := ?_, pipe := fun h1 h2 => ?_, mtext := fun h1 => ?_,
                     failed := fun h1 => ?_ }
    · simp [hd.written]
    · simp [hd.pipe h1 h2, frame]
    · obtain ⟨x, rest, hpending, hheader, hpipe⟩ := hd.mtext h1
      exact ⟨x, rest ++ [(i, m)], by simp [hpending], hheader, by simp [hpipe, frame]⟩
    · obtain ⟨x, rest, hpending, hempty⟩ := hd.failed h1
      exact ⟨x, rest ++ [(i, m)], by simp [hpending], hempty⟩
  · exact fun hnil => pbuf_ne_nil (msqid i) m (List.append_eq_nil_iff.mp hnil).2

theorem inv_childStep (h : Inv msqid toSend s) {a : Act n}
    (ha : childStep msqid cap s a = some s') : Inv msqid toSend s' := by
  cases a with
  | msgrcv j =>
    simp only [childStep] at ha
    cases hc : s.children j with
    | receive =>
      cases hq : s.queues j with
      | nil => simp [hc, hq] at ha
      | cons m rest =>
        simp only [hc, hq] at ha
        split_ifs at ha with hlong
        · obtain rfl := Option.some.inj ha
          have hinv := inv_child h j .failed (s.queues j)
            (by simp [hc, ChildPc.held]) (by simp) fun _ => ⟨m, rest, hq, hlong⟩
          simpa only [Function.update_eq_self] using hinv
        · obtain rfl := Option.some.inj ha
          exact inv_child h j (.write m) rest (by simp [hc, hq, ChildPc.held])
            (fun m' hm' => ChildPc.write.inj hm' ▸ not_lt.mp hlong) (by simp)
    | _ => simp [hc] at ha
  | write j =>
    simp only [childStep] at ha
    cases hc : s.children j with
    | write m =>
      rw [hc] at ha
      obtain ⟨pipe, hw, rfl⟩ := Option.map_eq_some_iff.mp ha
      obtain rfl := writeAtomic_eq_some hw
      exact inv_write h hc
    | _ => simp [hc] at ha
  | _ => exact absurd ha (by simp [childStep])

/-! ### The parent -/

theorem inv_select (h : Inv msqid toSend s) (hp : s.parent = .select) {pc : ParentPc}
    (hpc : pc = .header ∧ s.pipe ≠ [] ∨ pc = .terminal (s.pipe ≠ []) ∧ s.tty ≠ []) :
    Inv msqid toSend { s with parent := pc } := by
  obtain ⟨done, pending, hd⟩ := h.decodes
  have hpipe := hd.pipe (by simp [hp]) (by simp [hp])
  rcases hpc with ⟨rfl, hne⟩ | ⟨rfl, hne⟩
  · exact { h with
      decodes := ⟨done, pending, { hd with
        pipe := fun _ _ => hpipe, mtext := nofun, failed := nofun }⟩
      pipe_ready := fun _ => hne
      tty_ready := nofun }
  · exact { h with
      decodes := ⟨done, pending, { hd with
        pipe := fun _ _ => hpipe, mtext := nofun, failed := nofun }⟩
      pipe_ready := by simp
      tty_ready := fun _ _ => hne }

theorem inv_readTerminal (h : Inv msqid toSend s) {ready : Bool} (hp : s.parent = .terminal ready)
    (tty buf : List UInt8) :
    Inv msqid toSend { s with
      tty := tty
      out := s.out ++ [terminalLine buf]
      parent := if ready then .header else .select } := by
  obtain ⟨done, pending, hd⟩ := h.decodes
  have hpipe := hd.pipe (by simp [hp]) (by simp [hp])
  have hprinted : (s.out ++ [terminalLine buf]).filter Line.isMq = done.map (line msqid) := by
    simp [hd.printed, terminalLine, Line.isMq]
  cases ready with
  | false =>
    exact { h with
      decodes := ⟨done, pending, { hd with
        printed := hprinted, pipe := fun _ _ => hpipe, mtext := nofun, failed := nofun }⟩
      pipe_ready := by simp
      tty_ready := nofun }
  | true =>
    exact { h with
      decodes := ⟨done, pending, { hd with
        printed := hprinted, pipe := fun _ _ => hpipe, mtext := nofun, failed := nofun }⟩
      pipe_ready := fun _ => h.pipe_ready (Or.inr hp)
      tty_ready := nofun }

theorem overwrite_of_length {buf bytes : List UInt8} (h : buf.length = bytes.length) :
    overwrite buf bytes = bytes := by
  rw [overwrite, ← h, List.drop_length, List.append_nil]

/-- The pipe has whole frames in it, so that the read of a header takes exactly one. -/
theorem inv_readHeader (h : Inv msqid toSend s) (hp : s.parent = .header)
    {r : List UInt8 × List UInt8}
    (hr : readAvailable headerSize s.pipe = some r) :
    Inv msqid toSend { s with
      pipe := r.2
      pmsg := { s.pmsg with header := overwrite s.pmsg.header r.1 }
      parent := .mtext } := by
  obtain ⟨done, pending, hd⟩ := h.decodes
  have hpipe := hd.pipe (by simp [hp]) (by simp [hp])
  cases pending with
  | nil => exact absurd hpipe (h.pipe_ready (Or.inl hp))
  | cons x rest =>
    have hpipe' : s.pipe =
        pbufHeader (msqid x.1) x.2 ++ (x.2.mtext ++ rest.flatMap (frame msqid)) := by
      rw [hpipe, List.flatMap_cons, frame, pbuf, List.append_assoc]
    have hread := readAvailable_append (pbufHeader_ne_nil (msqid x.1) x.2)
      (x.2.mtext ++ rest.flatMap (frame msqid))
    rw [length_pbufHeader, ← hpipe', hr] at hread
    obtain rfl := Option.some.inj hread
    have hheader : overwrite s.pmsg.header (pbufHeader (msqid x.1) x.2) =
        pbufHeader (msqid x.1) x.2 :=
      overwrite_of_length (hd.header.trans (length_pbufHeader _ _).symm)
    exact { h with
      decodes := ⟨done, x :: rest, { hd with
        header := by rw [hheader, length_pbufHeader]
        pipe := fun h1 => absurd rfl h1
        mtext := fun _ => ⟨x, rest, rfl, hheader, rfl⟩
        failed := nofun }⟩
      pipe_ready := by simp
      tty_ready := nofun }

theorem inv_failed (h : Inv msqid toSend s) (hp : s.parent = .mtext) (hlen : s.pmsg.len = 0) :
    Inv msqid toSend { s with parent := .failed } := by
  obtain ⟨done, pending, hd⟩ := h.decodes
  obtain ⟨x, rest, rfl, hheader, -⟩ := hd.mtext hp
  have hfits := h.fits x (by simp [hd.written])
  have hempty := (len_eq_zero_of_header hheader hfits).mp hlen
  exact { h with
    decodes := ⟨done, x :: rest, { hd with
      pipe := fun _ h2 => absurd rfl h2
      mtext := nofun
      failed := fun _ => ⟨x, rest, rfl, hempty⟩ }⟩
    pipe_ready := by simp
    tty_ready := nofun }

/-- The text of the message is there as a whole. -/
theorem inv_readMtext (h : Inv msqid toSend s) (hp : s.parent = .mtext) (hlen : s.pmsg.len ≠ 0)
    {r : List UInt8 × List UInt8}
    (hr : readAvailable (s.pmsg.len.signExtend 64).toNat s.pipe = some r) :
    Inv msqid toSend { s with
      pipe := r.2
      pmsg := { s.pmsg with mtext := overwrite s.pmsg.mtext r.1 }
      out := s.out ++ [.mq s.pmsg.msqid s.pmsg.mtype s.pmsg.len
        (cstr ((overwrite s.pmsg.mtext r.1).take (s.pmsg.len.signExtend 64).toNat))]
      parent := .select } := by
  obtain ⟨done, pending, hd⟩ := h.decodes
  obtain ⟨x, rest, rfl, hheader, hpipe⟩ := hd.mtext hp
  have hfits := h.fits x (by simp [hd.written])
  have hne : x.2.mtext ≠ [] := fun hnil =>
    hlen ((len_eq_zero_of_header hheader hfits).mpr hnil)
  have hsize := toNat_len_of_header hheader hfits
  rw [hpipe, hsize, readAvailable_append hne _] at hr
  obtain rfl := Option.some.inj hr
  have hline : Line.mq s.pmsg.msqid s.pmsg.mtype s.pmsg.len
      (cstr ((overwrite s.pmsg.mtext x.2.mtext).take x.2.mtext.length)) = line msqid x := by
    rw [msqid_of_header hheader, mtype_of_header hheader, len_of_header hheader, overwrite,
      List.take_left, line]
  rw [hsize]
  exact { h with
    decodes := ⟨done ++ [x], rest, {
      written := by simp [hd.written]
      printed := by
        rw [hline, List.filter_append, hd.printed, List.map_append]
        rfl
      nonempty := by
        intro y hy
        rcases List.mem_append.mp hy with hy | hy
        · exact hd.nonempty y hy
        · rw [List.mem_singleton.mp hy]
          exact hne
      header := hd.header
      pipe := fun _ _ => rfl
      mtext := nofun
      failed := nofun }⟩
    pipe_ready := by simp
    tty_ready := nofun }

theorem inv_parentStep (h : Inv msqid toSend s) {a : Act n} (ha : parentStep s a = some s') :
    Inv msqid toSend s' := by
  cases a with
  | select =>
    simp only [parentStep] at ha
    split_ifs at ha with hp htty hpipe
    · obtain rfl := Option.some.inj ha
      exact inv_select h hp (Or.inr ⟨rfl, htty⟩)
    · obtain rfl := Option.some.inj ha
      exact inv_select h hp (Or.inl ⟨rfl, hpipe⟩)
  | readTerminal k =>
    simp only [parentStep] at ha
    cases hp : s.parent with
    | terminal ready =>
      rw [hp] at ha
      obtain ⟨⟨buf, tty⟩, -, rfl⟩ := Option.map_eq_some_iff.mp ha
      exact inv_readTerminal h hp tty buf
    | _ => simp [hp] at ha
  | readHeader =>
    obtain ⟨hp, ha⟩ := Option.ite_none_right_eq_some.mp ha
    obtain ⟨r, hr, rfl⟩ := Option.map_eq_some_iff.mp ha
    exact inv_readHeader h hp hr
  | readMtext =>
    obtain ⟨hp, ha⟩ := Option.ite_none_right_eq_some.mp ha
    split_ifs at ha with hlen
    · obtain rfl := Option.some.inj ha
      exact inv_failed h hp hlen
    · obtain ⟨r, hr, rfl⟩ := Option.map_eq_some_iff.mp ha
      exact inv_readMtext h hp hlen hr
  | _ => exact absurd ha (by simp [parentStep])

theorem inv_step (h : Inv msqid toSend s) {a : Act n}
    (ha : (machine msqid cap toSend toType).step s a = some s') : Inv msqid toSend s' := by
  rcases Option.or_eq_some_iff.mp ha with ha | ⟨-, ha⟩
  · rcases Option.or_eq_some_iff.mp ha with ha | ⟨-, ha⟩
    · exact inv_outside h ha
    · exact inv_childStep h ha
  · exact inv_parentStep h ha

/-! ## Every run comes to its end -/

def ChildPc.weight : ChildPc → ℕ
  | .write _ => 6
  | .receive => 1
  | _ => 0

def ParentPc.weight : ParentPc → ℕ
  | .select => 4
  | .terminal _ => 3
  | .header => 2
  | .mtext => 1
  | .failed => 0

/-- The number of messages that are written and not yet printed. -/
def State.unprinted (s : State n) : ℕ := s.written.length - (s.out.filter Line.isMq).length

/-- A message, and a byte typed, weighs more the more steps it has before it. -/
def weight (s : State n) : ℕ :=
  7 * s.toSend.length + ∑ j, 6 * (s.queues j).length + ∑ j, (s.children j).weight +
    4 * s.unprinted + (s.toType.map fun text => 5 * text.length + 1).sum + 4 * s.tty.length +
    s.parent.weight

theorem weight_outside {a : Act n} (ha : outsideStep s a = some s') : weight s' < weight s := by
  cases a with
  | msgsnd =>
    simp only [outsideStep] at ha
    cases hs : s.toSend with
    | nil => simp [hs] at ha
    | cons x rest =>
      rw [hs] at ha
      obtain rfl := Option.some.inj ha
      have hsum := sum_update (fun q : List Message => 6 * q.length) s.queues x.1
        (s.queues x.1 ++ [x.2])
      simp only [List.length_append, List.length_singleton] at hsum
      simp only [weight, State.unprinted, hs, List.length_cons]
      omega
  | type =>
    simp only [outsideStep] at ha
    cases ht : s.toType with
    | nil => simp [ht] at ha
    | cons text rest =>
      rw [ht] at ha
      obtain rfl := Option.some.inj ha
      simp only [weight, State.unprinted, ht, List.map_cons, List.sum_cons, List.length_append]
      omega
  | _ => exact absurd ha (by simp [outsideStep])

theorem printed_le_written (h : Inv msqid toSend s) :
    (s.out.filter Line.isMq).length ≤ s.written.length := by
  obtain ⟨done, pending, hd⟩ := h.decodes
  simp [hd.printed, hd.written]

theorem weight_child (h : Inv msqid toSend s) {a : Act n}
    (ha : childStep msqid cap s a = some s') : weight s' < weight s := by
  cases a with
  | msgrcv j =>
    simp only [childStep] at ha
    cases hc : s.children j with
    | receive =>
      cases hq : s.queues j with
      | nil => simp [hc, hq] at ha
      | cons m rest =>
        simp only [hc, hq] at ha
        split_ifs at ha with hlong
        · obtain rfl := Option.some.inj ha
          have hsum := sum_update ChildPc.weight s.children j .failed
          simp only [hc, ChildPc.weight] at hsum
          simp only [weight, State.unprinted, ChildPc.weight]
          omega
        · obtain rfl := Option.some.inj ha
          have hsum := sum_update ChildPc.weight s.children j (.write m)
          have hsum' := sum_update (fun q : List Message => 6 * q.length) s.queues j rest
          simp only [hc, ChildPc.weight] at hsum
          simp only [hq, List.length_cons] at hsum'
          simp only [weight, State.unprinted, ChildPc.weight]
          omega
    | _ => simp [hc] at ha
  | write j =>
    simp only [childStep] at ha
    cases hc : s.children j with
    | write m =>
      rw [hc] at ha
      obtain ⟨pipe, -, rfl⟩ := Option.map_eq_some_iff.mp ha
      have hsum := sum_update ChildPc.weight s.children j .receive
      have hle := printed_le_written h
      simp only [hc, ChildPc.weight] at hsum
      simp only [weight, State.unprinted, ChildPc.weight, List.length_append,
        List.length_singleton]
      omega
    | _ => simp [hc] at ha
  | _ => exact absurd ha (by simp [childStep])

theorem unprinted_pos (h : Inv msqid toSend s) (hp : s.parent = .mtext) :
    (s.out.filter Line.isMq).length < s.written.length := by
  obtain ⟨done, pending, hd⟩ := h.decodes
  obtain ⟨x, rest, rfl, -, -⟩ := hd.mtext hp
  simp [hd.printed, hd.written]

theorem weight_parent (h : Inv msqid toSend s) {a : Act n} (ha : parentStep s a = some s') :
    weight s' < weight s := by
  cases a with
  | select =>
    simp only [parentStep] at ha
    split_ifs at ha with hp
    all_goals
      obtain rfl := Option.some.inj ha
      simp [weight, State.unprinted, ParentPc.weight, hp]
  | readTerminal k =>
    simp only [parentStep] at ha
    cases hp : s.parent with
    | terminal ready =>
      rw [hp] at ha
      obtain ⟨⟨buf, tty⟩, hr, rfl⟩ := Option.map_eq_some_iff.mp ha
      obtain ⟨happ, hne, -⟩ := takeBlock_eq_some hr
      have hpos := List.length_pos_of_ne_nil hne
      have hlen := congrArg List.length happ
      rw [List.length_append] at hlen
      cases ready <;>
        simp only [weight, State.unprinted, ParentPc.weight, hp, List.filter_append, terminalLine,
          List.filter_singleton, Line.isMq, Bool.cond_false, List.append_nil, if_true,
          Bool.false_eq_true, if_false] <;>
        omega
    | _ => simp [hp] at ha
  | readHeader =>
    obtain ⟨hp, ha⟩ := Option.ite_none_right_eq_some.mp ha
    obtain ⟨r, -, rfl⟩ := Option.map_eq_some_iff.mp ha
    simp [weight, State.unprinted, ParentPc.weight, hp]
  | readMtext =>
    obtain ⟨hp, ha⟩ := Option.ite_none_right_eq_some.mp ha
    split_ifs at ha with hlen
    · obtain rfl := Option.some.inj ha
      simp [weight, State.unprinted, ParentPc.weight, hp]
    · obtain ⟨r, -, rfl⟩ := Option.map_eq_some_iff.mp ha
      have hlt := unprinted_pos h hp
      simp only [weight, State.unprinted, ParentPc.weight, hp, List.filter_append,
        List.filter_singleton, Line.isMq, Bool.cond_true, List.length_append, List.length_singleton]
      omega
  | _ => exact absurd ha (by simp [parentStep])

theorem weight_step (h : Inv msqid toSend s) {a : Act n}
    (ha : (machine msqid cap toSend toType).step s a = some s') : weight s' < weight s := by
  rcases Option.or_eq_some_iff.mp ha with ha | ⟨-, ha⟩
  · rcases Option.or_eq_some_iff.mp ha with ha | ⟨-, ha⟩
    · exact weight_outside ha
    · exact weight_child h ha
  · exact weight_parent h ha

/-- All is sent, typed and printed; a child still waits, or has failed at a message that is too
long for it. -/
structure State.Finished (s : State n) : Prop where
  sent : s.toSend = []
  typed : s.toType = []
  tty : s.tty = []
  pipe : s.pipe = []
  parent : s.parent = .select
  children : ∀ j, s.children j = .failed ∨ s.children j = .receive ∧ s.queues j = []

section Stuck
variable (hs : (machine msqid cap toSend toType).Stuck s)
include hs

theorem steps_of_stuck (a : Act n) :
    outsideStep s a = none ∧ childStep msqid cap s a = none ∧ parentStep s a = none := by
  have h := hs a
  simp only [machine, Option.or_eq_none_iff] at h
  exact ⟨h.1.1, h.1.2, h.2⟩

theorem parent_of_stuck (h : Inv msqid toSend s) :
    s.parent = .failed ∨ s.parent = .select ∧ s.tty = [] ∧ s.pipe = [] := by
  cases hp : s.parent with
  | select =>
    have hsel := (steps_of_stuck hs .select).2.2
    simp only [parentStep, hp, if_true] at hsel
    split_ifs at hsel with htty hpipe
    exact Or.inr ⟨rfl, not_not.mp htty, not_not.mp hpipe⟩
  | terminal ready =>
    have hread := (steps_of_stuck hs (.readTerminal 1)).2.2
    cases htty : s.tty with
    | nil => exact absurd htty (h.tty_ready ready hp)
    | cons a l =>
      rw [parentStep, hp, htty, takeBlock_one (by decide)] at hread
      exact absurd hread (Option.some_ne_none _)
  | header =>
    have hread := (steps_of_stuck hs .readHeader).2.2
    have hne := h.pipe_ready (Or.inl hp)
    simp only [parentStep, hp, if_true, Option.map_eq_none_iff] at hread
    exact absurd hread (readAvailable_ne_none (by decide) hne)
  | mtext =>
    have hread := (steps_of_stuck hs .readMtext).2.2
    obtain ⟨done, pending, hd⟩ := h.decodes
    obtain ⟨x, rest, rfl, hheader, hpipe⟩ := hd.mtext hp
    have hfits := h.fits x (by simp [hd.written])
    simp only [parentStep, hp, if_true] at hread
    split_ifs at hread with hlen
    have hne : x.2.mtext ≠ [] := fun hnil =>
      hlen ((len_eq_zero_of_header hheader hfits).mpr hnil)
    rw [toNat_len_of_header hheader hfits, hpipe, readAvailable_append hne] at hread
    exact absurd hread (Option.some_ne_none _)
  | failed => exact Or.inl rfl

theorem child_of_stuck (hcap : pipeBuf ≤ cap) (h : Inv msqid toSend s) (hpipe : s.pipe = [])
    (j : Fin n) :
    s.children j = .failed ∨ s.children j = .receive ∧ s.queues j = [] := by
  cases hc : s.children j with
  | receive =>
    have hrcv := (steps_of_stuck hs (.msgrcv j)).2.1
    cases hq : s.queues j with
    | nil => exact Or.inr ⟨rfl, rfl⟩
    | cons m rest =>
      simp only [childStep, hc, hq] at hrcv
      split_ifs at hrcv
  | write m =>
    have hwrite := (steps_of_stuck hs (.write j)).2.1
    have hlen := length_pbuf (h.child_fits j m hc) (msqid j)
    simp only [childStep, hc, hpipe] at hwrite
    rw [writeAtomic_nil (pbuf_ne_nil (msqid j) m) (hlen.trans hcap)] at hwrite
    exact absurd hwrite (Option.some_ne_none _)
  | failed => exact Or.inl rfl

theorem finished_of_stuck (hcap : pipeBuf ≤ cap) (h : Inv msqid toSend s) :
    s.parent = .failed ∨ s.Finished := by
  rcases parent_of_stuck hs h with hfailed | ⟨hp, htty, hpipe⟩
  · exact Or.inl hfailed
  · refine Or.inr ⟨?_, ?_, htty, hpipe, hp, child_of_stuck hs hcap h hpipe⟩
    · have hsend := (steps_of_stuck hs .msgsnd).1
      cases ht : s.toSend with
      | nil => rfl
      | cons x rest => simp [outsideStep, ht] at hsend
    · have htype := (steps_of_stuck hs .type).1
      cases ht : s.toType with
      | nil => rfl
      | cons text rest => simp [outsideStep, ht] at htype

end Stuck

theorem pending_of_finished {done pending : List (Fin n × Message)}
    (hd : Decodes msqid s done pending) (hf : s.Finished) : pending = [] := by
  have hpipe := hd.pipe (by simp [hf.parent]) (by simp [hf.parent])
  rw [hf.pipe] at hpipe
  cases pending with
  | nil => rfl
  | cons x rest => exact absurd (List.append_eq_nil_iff.mp hpipe.symm).1 (pbuf_ne_nil _ _)

/-- At the end a queue has been relayed up to its first message that is too long. -/
theorem relayed_of_finished (h : Inv msqid toSend s) (hf : s.Finished) (j : Fin n) :
    sentTo j s.written = (sentTo j toSend).takeWhile fun m => m.mtext.length ≤ maxMtext := by
  have horder := h.order j
  have hfits : ∀ m ∈ sentTo j s.written, decide (m.mtext.length ≤ maxMtext) = true := by
    intro m hm
    obtain ⟨x, hx, rfl⟩ := List.mem_map.mp hm
    exact decide_eq_true (h.fits x (List.mem_of_mem_filter hx))
  rw [hf.sent, sentTo_nil, List.append_nil] at horder
  rw [← horder, List.append_assoc, List.takeWhile_append_of_pos hfits]
  rcases hf.children j with hc | ⟨hc, hq⟩
  · obtain ⟨m, rest, hq, hlong⟩ := h.child_failed j hc
    simp [hc, hq, ChildPc.held, not_le.mpr hlong]
  · simp [hc, hq, ChildPc.held]

theorem inv_of_reachable (hs : (machine msqid cap toSend toType).Reachable s) :
    Inv msqid toSend s := by
  refine hs.invariant (I := Inv msqid toSend) ?_ fun _ _ _ h ha => inv_step h ha
  rintro _ ⟨pmsg, hheader, rfl⟩
  exact inv_start hheader

/-- One message, of two bytes, and then one without text. -/
def emptyAfterShort : List (Fin 1 × Message) := [(0, ⟨1, [104, 105]⟩), (0, ⟨1, []⟩)]

end Tlpi.Altio.SelectMq
