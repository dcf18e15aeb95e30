import Mathlib.Tactic
import Tlpi.Lib.Machine
import Tlpi.Svsem.BinarySems

/-! The shared-memory transfer of `svshm/svshm_xfr_writer.c` and `svshm/svshm_xfr_reader.c`. Every
`reserveSem()`, `releaseSem()` and access to the segment is a step of its own. The C ints `bytes`
and `xfrs` are 32-bit words. -/

namespace Tlpi.Svshm
open Lib Svsem

def WRITE_SEM : Fin 2 := 0

def READ_SEM : Fin 2 := 1

def BUF_SIZE : ℕ := 1024

inductive WriterPc
  /-- The semaphores are initialised; `shmget()` and `shmat()` are still to come. -/
  | shmget
  | reserve
  | read
  /-- `read()` has filled `buf` and returned `n`, which is still to be stored in `cnt`. -/
  | setCnt (n : ℤ)
  | checkCnt
  | release
  /-- Past `releaseSem(READ_SEM)`: the writer looks at `cnt` in the reader's turn. -/
  | testCnt
  | addCnt
  | lastReserve
  | rmSem
  | detach
  | rmShm
  | done
  | failed
  deriving DecidableEq

inductive ReaderPc
  | attach
  | reserve
  | testCnt
  | addCnt
  | loadCnt
  | write (n : ℤ)
  /-- `write()` has returned `k`. -/
  | compare (k : ℤ)
  | release
  | detach
  | lastRelease
  | done
  /-- `errExit()`: the segment or the semaphores do not exist. -/
  | noObject
  /-- `fatal("partial/failed write")`, in the reader's turn. -/
  | fatal
  deriving DecidableEq

structure State where
  sems : SemSet 2
  semRemoved : Bool
  shmExists : Bool
  shmRemoved : Bool
  cnt : ℤ
  buf : List UInt8
  /-- What standard input still holds, and what the writer has read from it. -/
  stdin : List UInt8
  sent : List UInt8
  /-- What the reader has written to standard output. -/
  out : List UInt8
  writer : WriterPc
  writerBytes : BitVec 32
  writerXfrs : BitVec 32
  reader : ReaderPc
  readerBytes : BitVec 32
  readerXfrs : BitVec 32

inductive Act
  /-- The writer takes its next step; a blocked `semop()` is applied. -/
  | writer
  | writerEintr
  /-- `read()` of the writer returns `n` bytes. -/
  | read (n : ℕ)
  | reader
  | readerEintr
  /-- `write()` of the reader returns `k`, `-1` included. -/
  | write (k : ℤ)

/-- `reserveSem()` and its error check in the writer and the reader. -/
def reserve (s : State) (semNum : Fin 2) (e : SemopEvent) (next : State → State)
    (fail : State → State) : Option State :=
  (reserveSem s.sems semNum e).map fun
    | (_, none) => s
    | (sems, some r) => if r = -1 then fail s else next { s with sems := sems }

def writerReserve (s : State) (e : SemopEvent) : Option State :=
  match s.writer with
  | .reserve =>
    reserve s WRITE_SEM e (fun s => { s with writer := .read })
      (fun s => { s with writer := .failed })
  | .lastReserve =>
    reserve s WRITE_SEM e (fun s => { s with writer := .rmSem })
      (fun s => { s with writer := .failed })
  | _ => none

/-- `main()` of `svshm_xfr_writer.c`, from `shmget()` on. -/
def writerStep (s : State) : Option State :=
  match s.writer with
  | .shmget => some { s with shmExists := true, writer := .reserve }
  | .reserve | .lastReserve => writerReserve s .applied
  | .read => none
  | .setCnt n => some { s with cnt := n, writer := .checkCnt }
  | .checkCnt => some { s with writer := if s.cnt = -1 then .failed else .release }
  | .release => some { s with sems := releaseSem s.sems READ_SEM, writer := .testCnt }
  | .testCnt => some { s with writer := if s.cnt = 0 then .lastReserve else .addCnt }
  | .addCnt =>
    some { s with
      writerXfrs := s.writerXfrs + 1
      writerBytes := s.writerBytes + BitVec.ofInt 32 s.cnt
      writer := .reserve }
  | .rmSem => some { s with semRemoved := true, writer := .detach }
  | .detach => some { s with writer := .rmShm }
  | .rmShm => some { s with shmRemoved := true, writer := .done }
  | .done | .failed => none

theorem writerStep_reserve {s : State} (hw : s.writer = .reserve ∨ s.writer = .lastReserve) :
    writerStep s = writerReserve s .applied := by
  rcases hw with hw | hw <;> simp only [writerStep, hw]

/-- `read(STDIN_FILENO, shmp->buf, BUF_SIZE)` returning `n` bytes, `0` only at end of file. -/
def readStdin (s : State) (n : ℕ) : Option State :=
  if s.writer = .read ∧ n ≤ BUF_SIZE ∧ n ≤ s.stdin.length ∧ (n = 0 → s.stdin = []) then
    some { s with
      buf := s.stdin.take n ++ s.buf.drop n
      stdin := s.stdin.drop n
      sent := s.sent ++ s.stdin.take n
      writer := .setCnt n }
  else none

def readerReserve (s : State) (e : SemopEvent) : Option State :=
  if s.reader = .reserve then
    if s.semRemoved then some { s with reader := .noObject }
    else reserve s READ_SEM e (fun s => { s with reader := .testCnt })
      (fun s => { s with reader := .noObject })
  else none

/-- `main()` of `svshm_xfr_reader.c`. -/
def readerStep (s : State) : Option State :=
  match s.reader with
  | .attach =>
    some { s with
      reader := if s.semRemoved ∨ s.shmRemoved ∨ s.shmExists = false then .noObject else .reserve }
  | .reserve => readerReserve s .applied
  | .testCnt => some { s with reader := if s.cnt = 0 then .detach else .addCnt }
  | .addCnt =>
    some { s with readerBytes := s.readerBytes + BitVec.ofInt 32 s.cnt, reader := .loadCnt }
  | .loadCnt => some { s with reader := .write s.cnt }
  | .write _ => none
  | .compare k => some { s with reader := if k ≠ s.cnt then .fatal else .release }
  | .release =>
    some { s with
      sems := releaseSem s.sems WRITE_SEM
      readerXfrs := s.readerXfrs + 1
      reader := .reserve }
  | .detach => some { s with reader := .lastRelease }
  | .lastRelease => some { s with sems := releaseSem s.sems WRITE_SEM, reader := .done }
  | .done | .noObject | .fatal => none

/-- `write(STDOUT_FILENO, shmp->buf, n)` returning `k`. -/
def writeStdout (s : State) (k : ℤ) : Option State :=
  match s.reader with
  | .write n =>
    if -1 ≤ k ∧ k ≤ n then
      some { s with out := s.out ++ s.buf.take k.toNat, reader := .compare k }
    else none
  | _ => none

def step (s : State) : Act → Option State
  | .writer => writerStep s
  | .writerEintr => writerReserve s .interrupted
  | .read n => readStdin s n
  | .reader => readerStep s
  | .readerEintr => readerReserve s .interrupted
  | .write k => writeStdout s k

/-- The writer has initialised the semaphores; the segment may hold anything. -/
def start (input : List UInt8) (sems : SemSet 2) (cnt : ℤ) (buf : List UInt8) : State where
  sems := initSemInUse (initSemAvailable sems WRITE_SEM) READ_SEM
  semRemoved := false
  shmExists := false
  shmRemoved := false
  cnt := cnt
  buf := buf
  stdin := input
  sent := []
  out := []
  writer := .shmget
  writerBytes := 0
  writerXfrs := 0
  reader := .attach
  readerBytes := 0
  readerXfrs := 0

def machine (input : List UInt8) : Machine State Act where
  init s := ∃ sems cnt buf, buf.length = BUF_SIZE ∧ s = start input sems cnt buf
  step := step

/-! ## Turns

In every reachable state exactly one of six phases holds: one of the two semaphores is available
(`Idle`, `Handed`, and `Finished` after the last block), one of the processes has its turn, or the
writer cleans up. Between its `releaseSem()` and its next `reserveSem()` the writer lags: it still
reads the `cnt` of the block that the reader may be working on. -/

/-- Between `reserveSem(WRITE_SEM)` and `releaseSem(READ_SEM)`. -/
def WriterPc.inTurn : WriterPc → Bool
  | .read | .setCnt _ | .checkCnt | .release => true
  | _ => false

/-- Past the last `reserveSem(WRITE_SEM)`. -/
def WriterPc.cleanup : WriterPc → Bool
  | .rmSem | .detach | .rmShm | .done => true
  | _ => false

theorem WriterPc.not_cleanup_of_inTurn {w : WriterPc} (h : w.inTurn = true) :
    w.cleanup = false := by
  cases w <;> simp_all [WriterPc.inTurn, WriterPc.cleanup]

/-- The writer has handed a block over and has not counted it yet. -/
def WriterPc.owes : WriterPc → Bool
  | .testCnt | .addCnt => true
  | _ => false

def ReaderPc.inTurn : ReaderPc → Bool
  | .testCnt | .addCnt | .loadCnt | .write _ | .compare _ | .release | .detach | .lastRelease
  | .fatal => true
  | _ => false

def ReaderPc.outside : ReaderPc → Bool
  | .attach | .reserve | .noObject => true
  | _ => false

theorem outside_not_inTurn {r : ReaderPc} (h : r.outside = true) : r.inTurn = false := by
  cases r <;> simp_all [ReaderPc.outside, ReaderPc.inTurn]

def ReaderPc.detached : ReaderPc → Bool
  | .lastRelease | .done => true
  | _ => false

/-- What the reader's counts lack (`db` bytes, `dx` transfers), once the writer's are completed by
the block that it still owes. -/
def Agree (s : State) (db dx : BitVec 32) : Prop :=
  s.writerBytes + (if s.writer.owes then BitVec.ofInt 32 s.cnt else 0) = s.readerBytes + db ∧
  s.writerXfrs + (if s.writer.owes ∧ s.cnt ≠ 0 then 1 else 0) = s.readerXfrs + dx

/-- The segment holds a block that has been read and not been written out. -/
def Block (s : State) (n : ℤ) : Prop :=
  0 ≤ n ∧ s.sent = s.out ++ s.buf.take n.toNat ∧ (n = 0 → s.stdin = [])

def WriterData (s : State) : WriterPc → Prop
  | .read => s.sent = s.out
  | .setCnt n => Block s n
  | .checkCnt | .release => Block s s.cnt
  | _ => False

def ReaderData (s : State) : ReaderPc → Prop
  | .testCnt => Block s s.cnt ∧ Agree s (BitVec.ofInt 32 s.cnt) (if s.cnt ≠ 0 then 1 else 0)
  | .addCnt => Block s s.cnt ∧ s.cnt ≠ 0 ∧ Agree s (BitVec.ofInt 32 s.cnt) 1
  | .loadCnt => Block s s.cnt ∧ s.cnt ≠ 0 ∧ Agree s 0 1
  | .write n => Block s s.cnt ∧ s.cnt ≠ 0 ∧ Agree s 0 1 ∧ n = s.cnt
  | .compare k => (∃ done, s.out = done ++ s.buf.take k.toNat ∧
      s.sent = done ++ s.buf.take s.cnt.toNat) ∧ k ≤ s.cnt ∧ s.cnt ≠ 0 ∧ Agree s 0 1
  | .release => s.sent = s.out ∧ s.cnt ≠ 0 ∧ Agree s 0 1
  | .detach | .lastRelease => s.sent = s.out ∧ s.cnt = 0 ∧ s.stdin = [] ∧ Agree s 0 0
  | .fatal => s.out <+: s.sent
  | _ => False

def Lagging (s : State) : Prop :=
  s.writer = .testCnt ∨ (s.writer = .addCnt ∨ s.writer = .reserve) ∧ s.cnt ≠ 0 ∨
    s.writer = .lastReserve ∧ s.cnt = 0

structure Idle (s : State) : Prop where
  sems : s.sems WRITE_SEM = 1 ∧ s.sems READ_SEM = 0
  reader : s.reader.outside = true
  writer : s.writer = .shmget ∨ s.writer = .reserve ∨
    (s.writer = .testCnt ∨ s.writer = .addCnt) ∧ s.cnt ≠ 0
  data : s.sent = s.out
  agree : Agree s 0 0

structure WriterTurn (s : State) : Prop where
  sems : s.sems WRITE_SEM = 0 ∧ s.sems READ_SEM = 0
  reader : s.reader.outside = true
  data : WriterData s s.writer
  agree : Agree s 0 0

structure Handed (s : State) : Prop where
  sems : s.sems WRITE_SEM = 0 ∧ s.sems READ_SEM = 1
  reader : s.reader.outside = true
  writer : Lagging s
  data : Block s s.cnt
  agree : Agree s (BitVec.ofInt 32 s.cnt) (if s.cnt ≠ 0 then 1 else 0)

structure ReaderTurn (s : State) : Prop where
  sems : s.sems WRITE_SEM = 0 ∧ s.sems READ_SEM = 0
  writer : Lagging s
  data : ReaderData s s.reader

structure Finished (s : State) : Prop where
  sems : s.sems WRITE_SEM = 1 ∧ s.sems READ_SEM = 0
  reader : s.reader = .done
  writer : s.writer = .testCnt ∨ s.writer = .lastReserve
  data : s.sent = s.out ∧ s.cnt = 0 ∧ s.stdin = []
  agree : Agree s 0 0

structure Over (s : State) : Prop where
  reader : s.reader = .done
  writer : s.writer.cleanup = true
  data : s.sent = s.out ∧ s.stdin = []
  agree : s.writerBytes = s.readerBytes ∧ s.writerXfrs = s.readerXfrs

inductive Phase (s : State) : Prop
  | idle : Idle s → Phase s
  | writer : WriterTurn s → Phase s
  | handed : Handed s → Phase s
  | reader : ReaderTurn s → Phase s
  | finished : Finished s → Phase s
  | cleanup : Over s → Phase s

structure Inv (input : List UInt8) (s : State) : Prop where
  stream : s.sent ++ s.stdin = input
  bufLen : s.buf.length = BUF_SIZE
  removed : s.semRemoved = true ∨ s.shmRemoved = true → s.writer.cleanup = true
  phase : Phase s

theorem inv_start (input : List UInt8) (sems : SemSet 2) (cnt : ℤ) {buf : List UInt8}
    (h : buf.length = BUF_SIZE) : Inv input (start input sems cnt buf) where
  stream := rfl
  bufLen := h
  removed := by simp [start]
  phase := .idle ⟨⟨by simp [start, initSemInUse, initSemAvailable, WRITE_SEM, READ_SEM],
    by simp [start, initSemInUse]⟩, rfl, .inl rfl, rfl, by simp [Agree, start, WriterPc.owes]⟩

/-! Where the writer is in each phase. -/

theorem Lagging.places {s : State} (h : Lagging s) : s.writer.inTurn = false ∧
    s.writer.cleanup = false ∧ s.writer ≠ .failed := by
  rcases h with e | ⟨e | e, -⟩ | ⟨e, -⟩ <;> simp [e, WriterPc.inTurn, WriterPc.cleanup]

theorem Idle.places {s : State} (h : Idle s) : s.writer.inTurn = false ∧
    s.writer.cleanup = false ∧ s.writer ≠ .failed := by
  rcases h.writer with e | e | ⟨e | e, -⟩ <;> simp [e, WriterPc.inTurn, WriterPc.cleanup]

theorem Finished.places {s : State} (h : Finished s) : s.writer.inTurn = false ∧
    s.writer.cleanup = false ∧ s.writer ≠ .failed := by
  rcases h.writer with e | e <;> simp [e, WriterPc.inTurn, WriterPc.cleanup]

theorem WriterTurn.places {s : State} (h : WriterTurn s) : s.writer.inTurn = true ∧
    s.writer.cleanup = false ∧ s.writer ≠ .failed := by
  have hd := h.data
  have ht : s.writer.inTurn = true := by
    cases e : s.writer <;> simp [e, WriterData, WriterPc.inTurn] at hd ⊢
  exact ⟨ht, WriterPc.not_cleanup_of_inTurn ht, fun e => by simp [e, WriterPc.inTurn] at ht⟩

theorem Over.places {s : State} (h : Over s) : s.writer.inTurn = false ∧ s.writer ≠ .failed := by
  have hw := h.writer
  cases e : s.writer <;> simp [e, WriterPc.inTurn, WriterPc.cleanup] at hw ⊢

theorem Phase.writerTurn {s : State} (h : Phase s) (hw : s.writer.inTurn = true) :
    WriterTurn s := by
  cases h with
  | writer h => exact h
  | idle h => simp [h.places] at hw
  | handed h => simp [h.writer.places] at hw
  | reader h => simp [h.writer.places] at hw
  | finished h => simp [h.places] at hw
  | cleanup h => simp [h.places] at hw

theorem Phase.readerTurn {s : State} (h : Phase s) (hr : s.reader.inTurn = true) :
    ReaderTurn s := by
  cases h with
  | reader h => exact h
  | idle h => simp [outside_not_inTurn h.reader] at hr
  | writer h => simp [outside_not_inTurn h.reader] at hr
  | handed h => simp [outside_not_inTurn h.reader] at hr
  | finished h => simp [h.reader, ReaderPc.inTurn] at hr
  | cleanup h => simp [h.reader, ReaderPc.inTurn] at hr

theorem Phase.readerAt {s : State} (h : Phase s) {r : ReaderPc} (hr : s.reader = r)
    (ht : r.inTurn = true) :
    (s.sems WRITE_SEM = 0 ∧ s.sems READ_SEM = 0) ∧ Lagging s ∧ ReaderData s r := by
  subst hr
  obtain ⟨hsems, hw, hd⟩ := h.readerTurn ht
  exact ⟨hsems, hw, hd⟩

/-! ## Steps of the writer -/

theorem read_ne_write : READ_SEM ≠ WRITE_SEM := by decide

theorem write_ne_read : WRITE_SEM ≠ READ_SEM := by decide

/-- A `reserveSem()` of either program retries or takes the semaphore; with `bsRetryOnEintr` set
it never fails. -/
theorem reserve_cases {s s' : State} {semNum : Fin 2} {e : SemopEvent} {next fail : State → State}
    (h : reserve s semNum e next fail = some s') : s' = s ∨ 0 < s.sems semNum ∧
      s' = next { s with sems := Function.update s.sems semNum (s.sems semNum - 1) } := by
  obtain ⟨⟨sems, r⟩, hr, hs⟩ := Option.map_eq_some_iff.mp h
  cases e with
  | applied =>
    obtain ⟨hpos, rfl, rfl⟩ := reserveSem_applied hr
    exact .inr ⟨hpos, hs.symm⟩
  | interrupted =>
    rw [reserveSem_interrupted] at hr
    obtain ⟨rfl, rfl⟩ := Prod.mk.inj (Option.some.inj hr)
    exact .inl hs.symm

theorem writerReserve_cases {s s' : State} {e : SemopEvent} (h : writerReserve s e = some s') :
    s' = s ∨ 0 < s.sems WRITE_SEM ∧ ∃ pc,
      (s.writer = .reserve ∧ pc = .read ∨ s.writer = .lastReserve ∧ pc = .rmSem) ∧
      s' = { s with
        sems := Function.update s.sems WRITE_SEM (s.sems WRITE_SEM - 1), writer := pc } := by
  unfold writerReserve at h
  split at h
  · next hw => exact (reserve_cases h).imp_right fun ⟨hpos, hs⟩ => ⟨hpos, _, .inl ⟨hw, rfl⟩, hs⟩
  · next hw => exact (reserve_cases h).imp_right fun ⟨hpos, hs⟩ => ⟨hpos, _, .inr ⟨hw, rfl⟩, hs⟩
  · cases h

theorem Phase.writerReserve {s s' : State} {e : SemopEvent} (h : Phase s)
    (hs : writerReserve s e = some s') : Phase s' := by
  rcases writerReserve_cases hs with rfl | ⟨hpos, pc, hpc, rfl⟩
  · exact h
  cases h with
  | idle h =>
    obtain ⟨⟨h0, h1⟩, hr, hw, hd, ha⟩ := h
    rcases hpc with ⟨hres, rfl⟩ | ⟨hres, -⟩
    · refine .writer ⟨⟨by simp [h0], ?_⟩, hr, hd, ?_⟩
      · simpa [Function.update_of_ne read_ne_write] using h1
      · simpa [Agree, hres, WriterPc.owes] using ha
    · simp [hres] at hw
  | writer h => exact absurd h.sems.1 hpos.ne'
  | handed h => exact absurd h.sems.1 hpos.ne'
  | reader h => exact absurd h.sems.1 hpos.ne'
  | finished h =>
    obtain ⟨-, hr, hw, ⟨hd, -, hin⟩, ha⟩ := h
    rcases hpc with ⟨hres, -⟩ | ⟨hres, rfl⟩
    · simp [hres] at hw
    · exact .cleanup ⟨hr, rfl, ⟨hd, hin⟩, by simpa [Agree, hres, WriterPc.owes] using ha⟩
  | cleanup h =>
    have hw := h.writer
    rcases hpc with ⟨hres, -⟩ | ⟨hres, -⟩ <;> simp [hres, WriterPc.cleanup] at hw

/-- The late reads of `cnt`: only the writer's own place and counts change. -/
theorem writerStep_owes {s s' : State} (hl : Lagging s) (ho : s.writer.owes = true)
    (hs : writerStep s = some s') :
    ∃ pc b x, s' = { s with writer := pc, writerBytes := b, writerXfrs := x } ∧ Lagging s' ∧
      (pc = .addCnt ∨ pc = .reserve ∨ pc = .lastReserve) ∧
      ∀ db dx, Agree s db dx → Agree s' db dx := by
  rcases hl with hw | ⟨hw | hw, hcnt⟩ | ⟨hw, -⟩ <;>
    simp only [hw, WriterPc.owes, Bool.false_eq_true] at ho
  · simp only [writerStep, hw, Option.some.injEq] at hs
    refine ⟨_, s.writerBytes, s.writerXfrs, hs.symm, ?_, ?_, ?_⟩
    · subst hs
      by_cases hcnt : s.cnt = 0 <;> simp [Lagging, hcnt]
    · split_ifs <;> simp
    · subst hs
      intro db dx ha
      by_cases hcnt : s.cnt = 0 <;> simpa [Agree, hw, hcnt, WriterPc.owes] using ha
  · simp only [writerStep, hw, Option.some.injEq] at hs
    refine ⟨_, _, _, hs.symm, ?_, by simp, ?_⟩
    · subst hs
      simp [Lagging, hcnt]
    · subst hs
      intro db dx ha
      simpa [Agree, hw, hcnt, WriterPc.owes] using ha

/-- What the reader has to do with its block does not depend on how far the writer lags. -/
theorem ReaderData.writer_moves {s : State} {pc : WriterPc} {b x : BitVec 32}
    (ha : ∀ db dx, Agree s db dx →
      Agree { s with writer := pc, writerBytes := b, writerXfrs := x } db dx)
    {r : ReaderPc} (h : ReaderData s r) :
    ReaderData { s with writer := pc, writerBytes := b, writerXfrs := x } r := by
  cases r with
  | testCnt => exact ⟨h.1, ha _ _ h.2⟩
  | addCnt => exact ⟨h.1, h.2.1, ha _ _ h.2.2⟩
  | loadCnt => exact ⟨h.1, h.2.1, ha _ _ h.2.2⟩
  | write n => exact ⟨h.1, h.2.1, ha _ _ h.2.2.1, h.2.2.2⟩
  | compare k => exact ⟨h.1, h.2.1, h.2.2.1, ha _ _ h.2.2.2⟩
  | release => exact ⟨h.1, h.2.1, ha _ _ h.2.2⟩
  | detach => exact ⟨h.1, h.2.1, h.2.2.1, ha _ _ h.2.2.2⟩
  | lastRelease => exact ⟨h.1, h.2.1, h.2.2.1, ha _ _ h.2.2.2⟩
  | fatal => exact h
  | attach | reserve | done | noObject => exact h

theorem Lagging.owes_or {s : State} (h : Lagging s) :
    s.writer.owes = true ∨ s.writer = .reserve ∨ s.writer = .lastReserve := by
  rcases h with hw | ⟨hw | hw, -⟩ | ⟨hw, -⟩ <;> simp [hw, WriterPc.owes]

theorem WriterTurn.writerStep {s s' : State} (h : WriterTurn s) (hs : writerStep s = some s') :
    Phase s' := by
  obtain ⟨⟨h0, h1⟩, hr, hd, ha⟩ := h
  cases hw : s.writer with
  | setCnt n =>
    simp only [Svshm.writerStep, hw, Option.some.injEq] at hs
    rw [hw] at hd
    subst hs
    exact .writer ⟨⟨h0, h1⟩, hr, hd, by simpa [Agree, hw, WriterPc.owes] using ha⟩
  | checkCnt =>
    rw [hw] at hd
    have hcnt : s.cnt ≠ -1 := by have := hd.1; omega
    simp only [Svshm.writerStep, hw, hcnt, if_false, Option.some.injEq] at hs
    subst hs
    exact .writer ⟨⟨h0, h1⟩, hr, hd, by simpa [Agree, hw, WriterPc.owes] using ha⟩
  | release =>
    simp only [Svshm.writerStep, hw, Option.some.injEq] at hs
    rw [hw] at hd
    subst hs
    refine .handed ⟨⟨?_, ?_⟩, hr, .inl rfl, hd, ?_⟩
    · simpa [releaseSem_of_ne _ write_ne_read] using h0
    · simp [h1]
    · simpa [Agree, hw, WriterPc.owes] using ha
  | read => simp [Svshm.writerStep, hw] at hs
  | _ => rw [hw] at hd; exact hd.elim

theorem Phase.writerStep {s s' : State} (h : Phase s) (hs : writerStep s = some s') : Phase s' := by
  cases h with
  | idle h =>
    rcases h.writer with hw | hw | ⟨hw, hcnt⟩
    · simp only [Svshm.writerStep, hw, Option.some.injEq] at hs
      subst hs
      exact .idle ⟨h.sems, h.reader, .inr (.inl rfl), h.data,
        by simpa [Agree, hw, WriterPc.owes] using h.agree⟩
    · exact (Phase.idle h).writerReserve (writerStep_reserve (.inl hw) ▸ hs)
    · have hl : Lagging s := hw.imp id fun e => .inl ⟨.inl e, hcnt⟩
      have ho : s.writer.owes = true := by rcases hw with e | e <;> rw [e] <;> rfl
      obtain ⟨pc, b, x, rfl, hl', hpc, ha⟩ := writerStep_owes hl ho hs
      refine .idle ⟨h.sems, h.reader, ?_, h.data, ha _ _ h.agree⟩
      rcases hpc with rfl | rfl | rfl
      · exact .inr (.inr ⟨.inr rfl, hcnt⟩)
      · exact .inr (.inl rfl)
      · simp [Lagging, hcnt] at hl'
  | writer h => exact h.writerStep hs
  | handed h =>
    rcases h.writer.owes_or with ho | hw
    · obtain ⟨pc, b, x, rfl, hl, -, ha⟩ := writerStep_owes h.writer ho hs
      exact .handed ⟨h.sems, h.reader, hl, h.data, ha _ _ h.agree⟩
    · exact (Phase.handed h).writerReserve (writerStep_reserve hw ▸ hs)
  | reader h =>
    rcases h.writer.owes_or with ho | hw
    · obtain ⟨pc, b, x, rfl, hl, -, ha⟩ := writerStep_owes h.writer ho hs
      exact .reader ⟨h.sems, hl, h.data.writer_moves ha⟩
    · exact (Phase.reader h).writerReserve (writerStep_reserve hw ▸ hs)
  | finished h =>
    rcases h.writer with hw | hw
    · simp only [Svshm.writerStep, hw, if_pos h.data.2.1, Option.some.injEq] at hs
      subst hs
      refine .finished ⟨h.sems, h.reader, .inr rfl, h.data, ?_⟩
      simpa [Agree, hw, h.data.2.1, WriterPc.owes] using h.agree
    · exact (Phase.finished h).writerReserve (writerStep_reserve (.inr hw) ▸ hs)
  | cleanup h =>
    have hw := h.writer
    cases hpc : s.writer <;> simp only [hpc, WriterPc.cleanup, Bool.false_eq_true] at hw <;>
      simp only [Svshm.writerStep, hpc, Option.some.injEq, reduceCtorEq] at hs <;>
      exact .cleanup (hs ▸ ⟨h.reader, rfl, h.data, h.agree⟩)

theorem Phase.readStdin {s s' : State} {n : ℕ} (h : Phase s) (hlen : s.buf.length = BUF_SIZE)
    (hs : readStdin s n = some s') :
    Phase s' ∧ s'.buf.length = BUF_SIZE ∧ s'.sent ++ s'.stdin = s.sent ++ s.stdin := by
  simp only [Svshm.readStdin, Option.ite_none_right_eq_some, Option.some.injEq] at hs
  obtain ⟨⟨hw, hn, hin, heof⟩, rfl⟩ := hs
  have ht := h.writerTurn (by rw [hw]; rfl)
  have hd : s.sent = s.out := by simpa [hw, WriterData] using ht.data
  refine ⟨.writer ⟨ht.sems, ht.reader, ⟨by simp, ?_, ?_⟩, ?_⟩, ?_, by simp⟩
  · simp [hd, hin]
  · intro h0
    simp [heof (by simpa using h0)]
  · simpa [Agree, hw, WriterPc.owes] using ht.agree
  · simp only [List.length_append, List.length_take, List.length_drop]
    omega

/-! ## Steps of the reader -/

theorem Phase.over {s : State} (h : Phase s) (hw : s.writer.cleanup = true) : Over s := by
  cases h with
  | cleanup h => exact h
  | idle h => simp [h.places] at hw
  | writer h => simp [h.places] at hw
  | handed h => simp [h.writer.places] at hw
  | reader h => simp [h.writer.places] at hw
  | finished h => simp [h.places] at hw

theorem ReaderTurn.inTurn {s : State} (h : ReaderTurn s) : s.reader.inTurn = true := by
  have hd := h.data
  cases e : s.reader <;> simp [e, ReaderPc.inTurn, ReaderData] at hd ⊢

theorem Phase.outside_moves {s : State} (h : Phase s) (hr : s.reader.outside = true) {r : ReaderPc}
    (hr' : r.outside = true) : Phase { s with reader := r } := by
  cases h with
  | idle h => exact .idle ⟨h.sems, hr', h.writer, h.data, h.agree⟩
  | writer h =>
    refine .writer ⟨h.sems, hr', ?_, h.agree⟩
    have hd := h.data
    change WriterData { s with reader := r } s.writer
    revert hd
    cases s.writer <;> exact id
  | handed h => exact .handed ⟨h.sems, hr', h.writer, h.data, h.agree⟩
  | reader h => exact absurd h.inTurn (by simp [outside_not_inTurn hr])
  | finished h => simp [h.reader, ReaderPc.outside] at hr
  | cleanup h => simp [h.reader, ReaderPc.outside] at hr

theorem Phase.readerReserve {s s' : State} {e : SemopEvent} (h : Phase s)
    (hrem : s.semRemoved = true → s.writer.cleanup = true) (hs : readerReserve s e = some s') :
    Phase s' := by
  simp only [Svshm.readerReserve, Option.ite_none_right_eq_some] at hs
  obtain ⟨hr, hs⟩ := hs
  have hsem : ¬ s.semRemoved = true := fun hx => by simp [(h.over (hrem hx)).reader] at hr
  rw [if_neg hsem] at hs
  rcases reserve_cases hs with rfl | ⟨hpos, rfl⟩
  · exact h
  cases h with
  | handed h =>
    obtain ⟨⟨h0, h1⟩, -, hw, hd, ha⟩ := h
    refine .reader ⟨⟨?_, by simp [h1]⟩, hw, hd, ha⟩
    simpa [Function.update_of_ne write_ne_read] using h0
  | idle h => exact absurd h.sems.2 hpos.ne'
  | writer h => exact absurd h.sems.2 hpos.ne'
  | reader h => exact absurd h.sems.2 hpos.ne'
  | finished h => exact absurd h.sems.2 hpos.ne'
  | cleanup h => simp [h.reader] at hr

theorem Block.out_prefix_sent {s : State} {n : ℤ} (h : Block s n) : s.out <+: s.sent :=
  h.2.1 ▸ List.prefix_append _ _

theorem ReaderData.out_prefix_sent {s : State} {r : ReaderPc} (h : ReaderData s r) :
    s.out <+: s.sent := by
  cases r with
  | testCnt => exact h.1.out_prefix_sent
  | addCnt => exact h.1.out_prefix_sent
  | loadCnt => exact h.1.out_prefix_sent
  | write n => exact h.1.out_prefix_sent
  | compare k =>
    obtain ⟨⟨done, hout, hsent⟩, hle, -, -⟩ := h
    rw [hout, hsent]
    exact (List.prefix_append_right_inj done).mpr
      (List.take_prefix_take_left (Int.toNat_le_toNat hle))
  | release => exact h.1 ▸ List.prefix_rfl
  | detach => exact h.1 ▸ List.prefix_rfl
  | lastRelease => exact h.1 ▸ List.prefix_rfl
  | fatal => exact h
  | attach | reserve | done | noObject => exact h.elim

theorem ReaderTurn.testCnt {s : State} (h : ReaderTurn s) (hr : s.reader = .testCnt) :
    ReaderTurn { s with reader := if s.cnt = 0 then .detach else .addCnt } := by
  obtain ⟨hsems, hw, hd⟩ := h
  rw [hr] at hd
  obtain ⟨hblock, ha⟩ := hd
  refine ⟨hsems, hw, ?_⟩
  change ReaderData _ (if s.cnt = 0 then _ else _)
  split_ifs with hcnt
  · have hout : s.sent = s.out := by simpa [hcnt] using hblock.2.1
    exact ⟨hout, hcnt, hblock.2.2 hcnt, by simpa [Agree, hcnt] using ha⟩
  · exact ⟨hblock, hcnt, by simpa [Agree, hcnt] using ha⟩

theorem ReaderTurn.compare {s : State} (h : ReaderTurn s) {k : ℤ} (hr : s.reader = .compare k) :
    ReaderTurn { s with reader := if k ≠ s.cnt then .fatal else .release } := by
  obtain ⟨hsems, hw, hd⟩ := h
  rw [hr] at hd
  have hpre := hd.out_prefix_sent
  obtain ⟨⟨done, hout, hsent⟩, -, hcnt, ha⟩ := hd
  refine ⟨hsems, hw, ?_⟩
  change ReaderData _ (if k ≠ s.cnt then _ else _)
  split_ifs with hk
  · exact hpre
  · have heq : k = s.cnt := not_not.mp hk
    exact ⟨by rw [hsent, hout, heq], hcnt, ha⟩

theorem Phase.readerStep {s s' : State} (h : Phase s)
    (hrem : s.semRemoved = true → s.writer.cleanup = true) (hs : readerStep s = some s') :
    Phase s' := by
  cases hr : s.reader with
  | attach =>
    simp only [Svshm.readerStep, hr, Option.some.injEq] at hs
    subst hs
    exact h.outside_moves (by rw [hr]; rfl) (by split_ifs <;> rfl)
  | reserve => exact h.readerReserve hrem (by simpa only [Svshm.readerStep, hr] using hs)
  | testCnt =>
    simp only [Svshm.readerStep, hr, Option.some.injEq] at hs
    exact .reader (hs ▸ (h.readerTurn (by rw [hr]; rfl)).testCnt hr)
  | addCnt =>
    simp only [Svshm.readerStep, hr, Option.some.injEq] at hs
    obtain ⟨hsems, hw, hd⟩ := h.readerAt hr rfl
    subst hs
    refine .reader ⟨hsems, hw, hd.1, hd.2.1, ?_⟩
    simpa [Agree] using hd.2.2
  | loadCnt =>
    simp only [Svshm.readerStep, hr, Option.some.injEq] at hs
    obtain ⟨hsems, hw, hd⟩ := h.readerAt hr rfl
    subst hs
    exact .reader ⟨hsems, hw, hd.1, hd.2.1, hd.2.2, rfl⟩
  | compare k =>
    simp only [Svshm.readerStep, hr, Option.some.injEq] at hs
    exact .reader (hs ▸ (h.readerTurn (by rw [hr]; rfl)).compare hr)
  | release =>
    simp only [Svshm.readerStep, hr, Option.some.injEq] at hs
    obtain ⟨⟨h0, h1⟩, hw, hout, hcnt, ha⟩ := h.readerAt hr rfl
    subst hs
    refine .idle ⟨⟨by simp [h0], ?_⟩, rfl, ?_, hout, by simpa [Agree] using ha⟩
    · simpa [releaseSem_of_ne _ read_ne_write] using h1
    · -- the block was not the last one, so the writer is not waiting to clean up
      rcases hw with e | ⟨e | e, -⟩ | ⟨-, e⟩
      · exact .inr (.inr ⟨.inl e, hcnt⟩)
      · exact .inr (.inr ⟨.inr e, hcnt⟩)
      · exact .inr (.inl e)
      · exact absurd e hcnt
  | detach =>
    simp only [Svshm.readerStep, hr, Option.some.injEq] at hs
    obtain ⟨hsems, hw, hd⟩ := h.readerAt hr rfl
    subst hs
    exact .reader ⟨hsems, hw, hd⟩
  | lastRelease =>
    simp only [Svshm.readerStep, hr, Option.some.injEq] at hs
    obtain ⟨⟨h0, h1⟩, hw, hout, hcnt, hin, ha⟩ := h.readerAt hr rfl
    subst hs
    refine .finished ⟨⟨by simp [h0], ?_⟩, rfl, ?_, ⟨hout, hcnt, hin⟩, ha⟩
    · simpa [releaseSem_of_ne _ read_ne_write] using h1
    · rcases hw with e | ⟨-, e⟩ | ⟨e, -⟩
      · exact .inl e
      · exact absurd hcnt e
      · exact .inr e
  | write n => simp [Svshm.readerStep, hr] at hs
  | done => simp [Svshm.readerStep, hr] at hs
  | noObject => simp [Svshm.readerStep, hr] at hs
  | fatal => simp [Svshm.readerStep, hr] at hs

theorem Phase.writeStdout {s s' : State} {k : ℤ} (h : Phase s) (hs : writeStdout s k = some s') :
    Phase s' := by
  unfold Svshm.writeStdout at hs
  split at hs
  · next n hr =>
    simp only [Option.ite_none_right_eq_some, Option.some.injEq] at hs
    obtain ⟨⟨-, hk⟩, rfl⟩ := hs
    obtain ⟨hsems, hw, hblock, hcnt, ha, rfl⟩ := h.readerAt hr rfl
    exact .reader ⟨hsems, hw, ⟨s.out, rfl, hblock.2.1⟩, hk, hcnt, ha⟩
  · cases hs

/-! ## Whole runs -/

theorem writerStep_frame {s s' : State} (hs : writerStep s = some s') :
    s'.sent = s.sent ∧ s'.stdin = s.stdin ∧ s'.buf = s.buf ∧
    ((s.semRemoved = true ∨ s.shmRemoved = true → s.writer.cleanup = true) →
      s'.semRemoved = true ∨ s'.shmRemoved = true → s'.writer.cleanup = true) := by
  cases hw : s.writer with
  | reserve | lastReserve =>
    rw [writerStep_reserve (by simp [hw])] at hs
    rcases writerReserve_cases hs with rfl | ⟨-, pc, -, rfl⟩
    · simp [hw]
    · refine ⟨rfl, rfl, rfl, fun hr hx => ?_⟩
      simpa [WriterPc.cleanup] using hr hx
  | _ =>
    simp only [writerStep, hw, Option.some.injEq, reduceCtorEq] at hs
    all_goals subst hs
    all_goals refine ⟨rfl, rfl, rfl, fun hr hx => ?_⟩
    all_goals simp_all [WriterPc.cleanup]

theorem readerStep_frame {s s' : State} (hs : readerStep s = some s') :
    s'.sent = s.sent ∧ s'.stdin = s.stdin ∧ s'.buf = s.buf ∧ s'.semRemoved = s.semRemoved ∧
    s'.shmRemoved = s.shmRemoved ∧ s'.writer = s.writer := by
  cases hr : s.reader with
  | reserve =>
    simp only [readerStep, hr, readerReserve, if_true] at hs
    split_ifs at hs
    · simp [← Option.some.inj hs]
    · rcases reserve_cases hs with rfl | ⟨-, rfl⟩ <;> simp
  | _ =>
    simp only [readerStep, hr, Option.some.injEq, reduceCtorEq] at hs
    all_goals subst hs
    all_goals simp

theorem inv_step {input : List UInt8} {s s' : State} (h : Inv input s) (a : Act)
    (hs : step s a = some s') : Inv input s' := by
  have hsem : s.semRemoved = true → s.writer.cleanup = true := fun hx => h.removed (.inl hx)
  cases a with
  | writer =>
    obtain ⟨hsent, hin, hbuf, hrem⟩ := writerStep_frame hs
    exact ⟨by rw [hsent, hin, h.stream], by rw [hbuf, h.bufLen], hrem h.removed,
      h.phase.writerStep hs⟩
  | writerEintr =>
    have hp := h.phase.writerReserve hs
    rcases writerReserve_cases hs with rfl | ⟨-, pc, hpc, rfl⟩
    · exact h
    · exact ⟨h.stream, h.bufLen, fun hx => by
        rcases hpc with ⟨e, -⟩ | ⟨e, -⟩ <;> simpa [e, WriterPc.cleanup] using h.removed hx, hp⟩
  | read n =>
    obtain ⟨hp, hlen, hstream⟩ := h.phase.readStdin h.bufLen hs
    refine ⟨hstream.trans h.stream, hlen, ?_, hp⟩
    simp only [step, readStdin, Option.ite_none_right_eq_some, Option.some.injEq] at hs
    obtain ⟨⟨hw, -⟩, rfl⟩ := hs
    exact fun hx => by simpa [hw, WriterPc.cleanup] using h.removed hx
  | reader =>
    obtain ⟨hsent, hin, hbuf, hrem, hrem', hw⟩ := readerStep_frame hs
    exact ⟨by rw [hsent, hin, h.stream], by rw [hbuf, h.bufLen],
      by rw [hrem, hrem', hw]; exact h.removed, h.phase.readerStep hsem hs⟩
  | readerEintr =>
    have hp := h.phase.readerReserve hsem hs
    simp only [step, readerReserve, Option.ite_none_right_eq_some] at hs
    obtain ⟨hr, hs⟩ := hs
    split_ifs at hs with hx
    · simp [(h.phase.over (hsem hx)).reader] at hr
    · rcases reserve_cases hs with rfl | ⟨-, rfl⟩
      · exact h
      · exact ⟨h.stream, h.bufLen, h.removed, hp⟩
  | write k =>
    have hp := h.phase.writeStdout hs
    simp only [step, writeStdout] at hs
    split at hs
    · simp only [Option.ite_none_right_eq_some, Option.some.injEq] at hs
      obtain ⟨-, rfl⟩ := hs
      exact ⟨h.stream, h.bufLen, h.removed, hp⟩
    · cases hs

theorem inv_reachable {input : List UInt8} {s : State} (hs : (machine input).Reachable s) :
    Inv input s := by
  refine Machine.Reachable.invariant (I := Inv input) ?_ (fun _ a _ hi ha => inv_step hi a ha) hs
  rintro _ ⟨sems, cnt, buf, hlen, rfl⟩
  exact inv_start input sems cnt hlen

theorem Phase.turn {s : State} (h : Phase s) (hw : s.writer.cleanup = false) :
    s.sems WRITE_SEM + s.sems READ_SEM + s.writer.inTurn.toNat + s.reader.inTurn.toNat = 1 := by
  cases h with
  | idle h => simp [h.sems, outside_not_inTurn h.reader, h.places]
  | writer h => simp [h.sems, outside_not_inTurn h.reader, h.places]
  | handed h => simp [h.sems, outside_not_inTurn h.reader, h.writer.places]
  | reader h => simp [h.sems, h.inTurn, h.writer.places]
  | finished h => simp [h.sems, h.reader, h.places, ReaderPc.inTurn]
  | cleanup h => simp [h.writer] at hw

theorem Phase.out_prefix_sent {s : State} (h : Phase s) : s.out <+: s.sent := by
  cases h with
  | idle h => exact h.data ▸ List.prefix_rfl
  | writer h =>
    have hd := h.data
    cases e : s.writer <;> rw [e] at hd
    case read => exact hd.symm ▸ List.prefix_rfl
    case setCnt n => exact Block.out_prefix_sent hd
    case checkCnt => exact Block.out_prefix_sent hd
    case release => exact Block.out_prefix_sent hd
    all_goals exact hd.elim
  | handed h => exact h.data.out_prefix_sent
  | reader h => exact h.data.out_prefix_sent
  | finished h => exact h.data.1 ▸ List.prefix_rfl
  | cleanup h => exact h.data.1 ▸ List.prefix_rfl

def WriterPc.terminated (w : WriterPc) : Prop := w = .done ∨ w = .failed

def ReaderPc.terminated (r : ReaderPc) : Prop := r = .done ∨ r = .noObject ∨ r = .fatal

theorem Phase.not_failed {s : State} (h : Phase s) : s.writer ≠ .failed := by
  cases h with
  | idle h => exact h.places.2.2
  | writer h => exact h.places.2.2
  | handed h => exact h.writer.places.2.2
  | reader h => exact h.writer.places.2.2
  | finished h => exact h.places.2.2
  | cleanup h => exact h.places.2

theorem svshm_xfr_exact {input : List UInt8} {s : State} (hs : (machine input).Reachable s) :
    ¬ (s.writer.inTurn = true ∧ s.reader.inTurn = true) ∧
    (s.writer.cleanup = false → s.sems WRITE_SEM + s.sems READ_SEM +
      s.writer.inTurn.toNat + s.reader.inTurn.toNat = 1) ∧
    s.out <+: s.sent ∧
    (s.writer.terminated ∧ s.reader.terminated → s.out = s.sent ∧ s.sent = input ∧
      s.writerBytes = s.readerBytes ∧ s.writerXfrs = s.readerXfrs) ∧
    (s.semRemoved = true ∨ s.shmRemoved = true → s.reader.detached = true) := by
  have h := inv_reachable hs
  refine ⟨?_, h.phase.turn, h.phase.out_prefix_sent, ?_, ?_⟩
  · rintro ⟨hw, hr⟩
    exact absurd hr (by simp [outside_not_inTurn (h.phase.writerTurn hw).reader])
  · rintro ⟨hw | hw, -⟩
    · have ho := h.phase.over (by rw [hw]; rfl)
      refine ⟨ho.data.1.symm, ?_, ho.agree⟩
      simpa [ho.data.2] using h.stream
    · exact absurd hw h.phase.not_failed
  · intro hx
    rw [(h.phase.over (h.removed hx)).reader]
    rfl

/-- Two bytes in two blocks: the writer reads the second `cnt` only after the reader has taken the
block, and both programs end. -/
theorem svshm_xfr_exact_run : ∃ s : State, (machine [7, 8]).Reachable s ∧
    s.out = s.sent ∧ s.sent = [7, 8] ∧ s.writerBytes = s.readerBytes ∧
      s.writerXfrs = s.readerXfrs := by
  obtain ⟨s, hs, hp⟩ := Machine.exists_reachable_of_exec (M := machine [7, 8])
    ⟨fun _ => 0, 0, List.replicate BUF_SIZE 0, by simp, rfl⟩
    [.writer, .reader, .writer, .read 1, .writer, .writer, .writer, .writer, .writer, .writerEintr,
      .readerEintr, .reader, .reader, .reader, .reader, .write 1, .reader, .reader,
      .writer, .read 1, .writer, .writer, .writer,
      .reader, .reader, .reader, .reader, .write 1, .writer, .writer, .reader, .reader,
      .writer, .read 0, .writer, .writer, .writer, .reader, .reader, .writer, .reader, .reader,
      .writer, .writer, .writer, .writer]
    (fun s => decide (s.writer = .done ∧ s.reader = .done)) (by decide)
  obtain ⟨hw, hr⟩ := of_decide_eq_true hp
  exact ⟨s, hs, (svshm_xfr_exact hs).2.2.2.1 ⟨.inl hw, .inl hr⟩⟩

end Tlpi.Svshm
