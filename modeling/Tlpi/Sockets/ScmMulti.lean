import Tlpi.Lib.Memory
import Tlpi.Lib.Outcome

/-! Ancillary data with two blocks: `sockets/scm_multi_send.c` builds it, the header walk of
`sockets/scm_multi_recv.c` takes it apart. -/

namespace Tlpi.Sockets.ScmMulti
open Lib Lib.Memory

def MAX_FDS : ℕ := 1024

-- `sizeof(int)` and `sizeof(struct ucred)`
def sizeofInt : ℕ := 4
def sizeofUcred : ℕ := 12

def SOL_SOCKET : BitVec 32 := 1
def SCM_RIGHTS : BitVec 32 := 1
def SCM_CREDENTIALS : BitVec 32 := 2

/-! ## The macros of cmsg(3) -/

def roundUp (align n : ℕ) : ℕ := (n + align - 1) / align * align

/-- What differs between platforms: the alignment, the size of `size_t`, where the data begins
behind a header, and whether `CMSG_NXTHDR()` wants the whole next block to be in the buffer or only
its header. -/
structure Platform where
  align : ℕ
  sizeofSizeT : ℕ
  dataOffset : ℕ
  checksNext : Bool
  align_pos : 0 < align
  header_le_data : sizeofSizeT + 2 * sizeofInt ≤ dataOffset
  data_le : dataOffset ≤ roundUp align (sizeofSizeT + 2 * sizeofInt)
  fits : 2 * roundUp align (sizeofSizeT + 2 * sizeofInt) + roundUp align (sizeofInt * MAX_FDS) +
    roundUp align sizeofUcred < 256 ^ sizeofSizeT

namespace Platform

variable (P : Platform)

/-- `sizeof(struct cmsghdr)`: `cmsg_len`, `cmsg_level`, `cmsg_type`. -/
def sizeofCmsghdr : ℕ := P.sizeofSizeT + 2 * sizeofInt

def cmsgAlign (n : ℕ) : ℕ := roundUp P.align n
def cmsgLen (n : ℕ) : ℕ := P.cmsgAlign P.sizeofCmsghdr + n
def cmsgSpace (n : ℕ) : ℕ := P.cmsgAlign n + P.cmsgAlign P.sizeofCmsghdr

end Platform

/-- `msg_control` and `msg_controllen`. -/
structure Msghdr where
  control : List UInt8
  controllen : ℕ

def cmsgFirsthdr (P : Platform) (msgh : Msghdr) : Option ℕ :=
  if P.sizeofCmsghdr ≤ msgh.controllen then some 0 else none

def loadLen (P : Platform) (m : List UInt8) (cmsg : ℕ) : Option ℕ :=
  (load m cmsg P.sizeofSizeT).map leValue

/-- The next header, `some none` for `NULL`; `none` if memory outside of the buffer is read. -/
def cmsgNxthdr (P : Platform) (msgh : Msghdr) (cmsg : ℕ) : Option (Option ℕ) :=
  (loadLen P msgh.control cmsg).bind fun len =>
    let next := cmsg + P.cmsgAlign len
    if len < P.sizeofCmsghdr ∨ next + P.sizeofCmsghdr > msgh.controllen then some none
    else if P.checksNext then
      (loadLen P msgh.control next).map fun len' =>
        if next + P.cmsgAlign len' > msgh.controllen then none else some next
    else some (some next)

/-! ## The sender -/

inductive Stop
  | usage
  | segv
  | errExit (msg : String)
  | fatal (msg : String)
  | running
  deriving DecidableEq

/-- The program is terminated when it accesses memory that it does not have. -/
def orSegv {α : Type} : Option α → Except Stop α
  | none => .error .segv
  | some a => .ok a

@[simp] theorem orSegv_some {α : Type} (a : α) : orSegv (some a) = .ok a := rfl

/-- The assignments to the fields of a header, in the order of both blocks. -/
def setHeader (P : Platform) (m : List UInt8) (cmsg : ℕ) (type : BitVec 32) (len : ℕ) :
    Option (List UInt8) :=
  (storeInts m (cmsg + P.sizeofSizeT) [SOL_SOCKET, type]).bind fun m =>
    store m cmsg (leBytes P.sizeofSizeT len)

/-- Places the descriptors that `open()` returns. -/
def storeFds : List UInt8 → ℕ → List (BitVec 32) → Except Stop (List UInt8)
  | m, _, [] => .ok m
  | m, off, fd :: fds => do
    let m ← orSegv (store m off (intBytes fd))
    if fd = -1 then .error (.errExit "open") else storeFds m (off + sizeofInt) fds

def controlMsgSize (P : Platform) (fdCnt : ℕ) : ℕ :=
  P.cmsgSpace (sizeofInt * fdCnt) + P.cmsgSpace sizeofUcred

/-- The buffer and the addresses of the two headers in it. -/
structure Encoded where
  msgh : Msghdr
  first : ℕ
  second : ℕ

/-- The ancillary data for the results of the `open()` calls and the credentials. -/
def encode (P : Platform) (fds : List (BitVec 32)) (pid uid gid : BitVec 32) :
    Except Stop Encoded := do
  let fdCnt := fds.length
  if fdCnt = 0 then .error .usage
  else
    let size := controlMsgSize P fdCnt
    let first ← orSegv (cmsgFirsthdr P ⟨List.replicate size 0, size⟩)
    let m ← orSegv (setHeader P (List.replicate size 0) first SCM_RIGHTS
      (P.cmsgLen (sizeofInt * fdCnt)))
    let second ← orSegv (cmsgNxthdr P ⟨m, size⟩ first).join
    let m ← orSegv (setHeader P m second SCM_CREDENTIALS (P.cmsgLen sizeofUcred))
    let m ← orSegv (storeInts m (second + P.dataOffset) [pid, uid, gid])
    let m ← storeFds m (first + P.dataOffset) fds
    .ok ⟨⟨m, size⟩, first, second⟩

/-! ## The receiver -/

/-- The size of the buffer of the receiver. -/
def recvControlMsgSize (P : Platform) : ℕ :=
  P.cmsgSpace (sizeofInt * MAX_FDS) + P.cmsgSpace sizeofUcred

inductive Block
  | rights (fdCnt : ℤ) (fdList : List (BitVec 32))
  | credentials (pid uid gid : BitVec 32)
  deriving DecidableEq

def decodeBlock (P : Platform) (m : List UInt8) (cmsg : ℕ) : Except Stop Block := do
  let len ← orSegv (loadLen P m cmsg)
  let level ← orSegv (loadInt m (cmsg + P.sizeofSizeT))
  let type ← orSegv (loadInt m (cmsg + P.sizeofSizeT + sizeofInt))
  if level ≠ SOL_SOCKET then .error (.fatal "cmsg_level != SOL_SOCKET")
  else if type = SCM_RIGHTS then
    -- the difference is a `size_t`, the quotient is assigned to an `int`
    let fdCnt := ((((len : ℤ) - P.cmsgLen 0) % 256 ^ P.sizeofSizeT) / sizeofInt).bmod (2 ^ 32)
    let fdList ← orSegv (loadInts m (cmsg + P.dataOffset) fdCnt.toNat)
    .ok (.rights fdCnt fdList)
  else if type = SCM_CREDENTIALS then
    if len ≠ P.cmsgLen sizeofUcred then .error (.fatal "cmsg data has incorrect size")
    else
      let ucredp := cmsg + P.dataOffset
      let pid ← orSegv (loadInt m ucredp)
      let uid ← orSegv (loadInt m (ucredp + sizeofInt))
      let gid ← orSegv (loadInt m (ucredp + 2 * sizeofInt))
      .ok (.credentials pid uid gid)
  else .error (.fatal "Bad cmsg_type")

/-- The loop over the headers, with a bound on its iterations. -/
def walk (P : Platform) (msgh : Msghdr) : ℕ → Option ℕ → Except Stop (List Block)
  | _, none => .ok []
  | 0, some _ => .error .running
  | fuel + 1, some cmsg => do
    let block ← decodeBlock P msgh.control cmsg
    let next ← orSegv (cmsgNxthdr P msgh cmsg)
    let blocks ← walk P msgh fuel next
    .ok (block :: blocks)

-- a header has more than one byte, so that there are fewer than `controllen` of them
def decode (P : Platform) (msgh : Msghdr) : Except Stop (List Block) :=
  walk P msgh msgh.controllen (cmsgFirsthdr P msgh)

/-! ## Sizes -/

section RoundUp

variable {a : ℕ} (ha : 0 < a)
include ha

theorem le_roundUp (n : ℕ) : n ≤ roundUp a n := by
  have hdiv := Nat.div_add_mod (n + a - 1) a
  have hmod := Nat.mod_lt (n + a - 1) ha
  rw [roundUp, Nat.mul_comm]
  omega

theorem roundUp_add (n k : ℕ) : roundUp a (roundUp a n + k) = roundUp a n + roundUp a k := by
  have hshift : roundUp a n + k + a - 1 = (k + a - 1) + (n + a - 1) / a * a := by
    rw [roundUp]
    omega
  rw [roundUp, hshift, Nat.add_mul_div_right _ _ ha, Nat.add_mul, Nat.add_comm]
  rfl

omit ha in
theorem roundUp_mono {n k : ℕ} (h : n ≤ k) : roundUp a n ≤ roundUp a k := by
  unfold roundUp
  gcongr

end RoundUp

section Sizes

variable (P : Platform)

theorem header_le_align : P.sizeofCmsghdr ≤ P.cmsgAlign P.sizeofCmsghdr := le_roundUp P.align_pos _

theorem cmsgAlign_cmsgLen (n : ℕ) : P.cmsgAlign (P.cmsgLen n) = P.cmsgSpace n := by
  rw [Platform.cmsgSpace, Nat.add_comm]
  exact roundUp_add P.align_pos _ n

theorem cmsgLen_le_cmsgSpace (n : ℕ) : P.cmsgLen n ≤ P.cmsgSpace n := by
  rw [← cmsgAlign_cmsgLen]
  exact le_roundUp P.align_pos _

theorem header_le_cmsgLen (n : ℕ) : P.sizeofCmsghdr ≤ P.cmsgLen n :=
  (header_le_align P).trans (Nat.le_add_right _ n)

/-- The data of a block ends before its length does. -/
theorem data_le_cmsgLen (n : ℕ) : P.dataOffset + n ≤ P.cmsgLen n :=
  Nat.add_le_add_right P.data_le n

theorem controlMsgSize_le {n : ℕ} (h : n ≤ MAX_FDS) :
    controlMsgSize P n ≤ recvControlMsgSize P := by
  have hmono : P.cmsgAlign (sizeofInt * n) ≤ P.cmsgAlign (sizeofInt * MAX_FDS) :=
    roundUp_mono (Nat.mul_le_mul_left _ h)
  unfold controlMsgSize recvControlMsgSize Platform.cmsgSpace
  omega

theorem recvControlMsgSize_lt : recvControlMsgSize P < 256 ^ P.sizeofSizeT := by
  refine lt_of_eq_of_lt ?_ P.fits
  unfold recvControlMsgSize Platform.cmsgSpace Platform.cmsgAlign Platform.sizeofCmsghdr
  omega

end Sizes

/-! ## Headers -/

def headerBytes (P : Platform) (type : BitVec 32) (len : ℕ) : List UInt8 :=
  leBytes P.sizeofSizeT len ++ [SOL_SOCKET, type].flatMap intBytes

section Headers

variable {P : Platform} {m : List UInt8} {cmsg len : ℕ} {type : BitVec 32}

theorem setHeader_spec (h : cmsg + P.sizeofCmsghdr ≤ m.length) (type : BitVec 32) (len : ℕ) :
    ∃ m', setHeader P m cmsg type len = some m' ∧ Frame m m' cmsg P.sizeofCmsghdr ∧
      Holds m' cmsg (headerBytes P type len) := by
  have hsize : P.sizeofCmsghdr = P.sizeofSizeT + 2 * 4 := rfl
  obtain ⟨m₁, hints, hframe, hholds⟩ : ∃ m₁, storeInts m (cmsg + P.sizeofSizeT) [SOL_SOCKET, type] =
      some m₁ ∧ Frame m m₁ (cmsg + P.sizeofSizeT) (4 * 2) ∧
        Holds m₁ (cmsg + P.sizeofSizeT) ([SOL_SOCKET, type].flatMap intBytes) :=
    storeInts_spec (show _ + 4 * 2 ≤ _ by omega)
  obtain ⟨m₂, hlen, hframe', hholds'⟩ : ∃ m₂, store m₁ cmsg (leBytes P.sizeofSizeT len) = some m₂ ∧
      Frame m₁ m₂ cmsg (leBytes P.sizeofSizeT len).length ∧
        Holds m₂ cmsg (leBytes P.sizeofSizeT len) :=
    store_spec (by rw [length_leBytes, hframe.length]; omega)
  rw [length_leBytes] at hframe'
  refine ⟨m₂, ?_, ?_, ?_⟩
  · rw [setHeader, hints]
    exact hlen
  · exact (hframe.mono (by omega) (by omega)).trans (hframe'.mono le_rfl (by omega))
  · refine hholds'.append ?_
    rw [length_leBytes]
    exact hholds.frame hframe' (.inr le_rfl)

theorem loadLen_eq (h : Holds m cmsg (leBytes P.sizeofSizeT len))
    (hle : cmsg + P.sizeofSizeT ≤ m.length) (hlen : len < 256 ^ P.sizeofSizeT) :
    loadLen P m cmsg = some len := by
  have hload := load_eq h (by rwa [length_leBytes])
  rw [length_leBytes] at hload
  rw [loadLen, hload, Option.map_some, leValue_leBytes_of_lt hlen]

/-- What the receiver reads from a header. -/
theorem load_header (h : Holds m cmsg (headerBytes P type len))
    (hle : cmsg + P.sizeofCmsghdr ≤ m.length) (hlen : len < 256 ^ P.sizeofSizeT) :
    loadLen P m cmsg = some len ∧ loadInt m (cmsg + P.sizeofSizeT) = some SOL_SOCKET ∧
      loadInt m (cmsg + P.sizeofSizeT + sizeofInt) = some type := by
  have hsize : P.sizeofCmsghdr = P.sizeofSizeT + 2 * 4 := rfl
  have hint : sizeofInt = 4 := rfl
  have hints := h.right
  rw [length_leBytes, List.flatMap_cons] at hints
  have htype := hints.right
  rw [length_intBytes, List.flatMap_cons, List.flatMap_nil, List.append_nil] at htype
  exact ⟨loadLen_eq h.left (by omega) hlen, loadInt_eq hints.left (by omega),
    loadInt_eq htype (by omega)⟩

variable {msgh : Msghdr}

theorem cmsgNxthdr_eq (h : loadLen P msgh.control cmsg = some len) (hlen : P.sizeofCmsghdr ≤ len)
    (hle : cmsg + P.cmsgAlign len + P.sizeofCmsghdr ≤ msgh.controllen) {len' : ℕ}
    (h' : loadLen P msgh.control (cmsg + P.cmsgAlign len) = some len')
    (hle' : cmsg + P.cmsgAlign len + P.cmsgAlign len' ≤ msgh.controllen) :
    cmsgNxthdr P msgh cmsg = some (some (cmsg + P.cmsgAlign len)) := by
  rw [cmsgNxthdr, h, Option.bind_some]
  dsimp only
  have hroom : ¬ (len < P.sizeofCmsghdr ∨
      cmsg + P.cmsgAlign len + P.sizeofCmsghdr > msgh.controllen) := by omega
  rw [if_neg hroom]
  cases P.checksNext with
  | true => rw [if_pos rfl, h', Option.map_some, if_neg (not_lt.mpr hle')]
  | false => exact if_neg Bool.false_ne_true

theorem cmsgNxthdr_end (h : loadLen P msgh.control cmsg = some len)
    (hle : msgh.controllen < cmsg + P.cmsgAlign len + P.sizeofCmsghdr) :
    cmsgNxthdr P msgh cmsg = some none := by
  rw [cmsgNxthdr, h, Option.bind_some]
  exact if_pos (.inr hle)

end Headers

/-! ## The two blocks -/

theorem storeFds_eq {fds : List (BitVec 32)} (h : ∀ fd ∈ fds, fd ≠ -1) (m : List UInt8) (off : ℕ) :
    storeFds m off fds = orSegv (storeInts m off fds) := by
  induction fds generalizing m off with
  | nil => rfl
  | cons fd fds ih =>
    obtain ⟨hfd, hfds⟩ := List.forall_mem_cons.mp h
    rw [storeFds, storeInts]
    cases store m off (intBytes fd) with
    | none => rfl
    | some m' =>
      rw [orSegv_some, ok_bind, if_neg hfd, Option.bind_some]
      exact ih hfds m' (off + 4)

/-- A buffer with the two blocks of `n` descriptors and the credentials. -/
structure Layout (P : Platform) (fds : List (BitVec 32)) (pid uid gid : BitVec 32)
    (m : List UInt8) : Prop where
  length : m.length = controlMsgSize P fds.length
  first : Holds m 0 (headerBytes P SCM_RIGHTS (P.cmsgLen (sizeofInt * fds.length)))
  fdList : Holds m P.dataOffset (fds.flatMap intBytes)
  second : Holds m (P.cmsgSpace (sizeofInt * fds.length))
    (headerBytes P SCM_CREDENTIALS (P.cmsgLen sizeofUcred))
  ucred : Holds m (P.cmsgSpace (sizeofInt * fds.length) + P.dataOffset)
    ([pid, uid, gid].flatMap intBytes)

section Blocks

variable {P : Platform} {fds : List (BitVec 32)} {pid uid gid : BitVec 32}

theorem cmsgLen_lt (hmax : fds.length ≤ MAX_FDS) :
    P.cmsgLen (sizeofInt * fds.length) < 256 ^ P.sizeofSizeT ∧
      P.cmsgLen sizeofUcred < 256 ^ P.sizeofSizeT := by
  have hfds := cmsgLen_le_cmsgSpace P (sizeofInt * fds.length)
  have hucred := cmsgLen_le_cmsgSpace P sizeofUcred
  have hle := controlMsgSize_le P hmax
  have hlt := recvControlMsgSize_lt P
  unfold controlMsgSize at hle
  omega

/-- Where the parts of the two blocks are in the buffer. -/
theorem layout_bounds (P : Platform) (n : ℕ) :
    P.sizeofSizeT ≤ P.sizeofCmsghdr ∧ P.sizeofCmsghdr ≤ P.dataOffset ∧
      P.dataOffset + 4 * n ≤ P.cmsgSpace (sizeofInt * n) ∧
      P.cmsgSpace (sizeofInt * n) + P.dataOffset + 4 * 3 ≤ controlMsgSize P n := by
  have hdata₁ : P.dataOffset + 4 * n ≤ P.cmsgLen (sizeofInt * n) := data_le_cmsgLen P _
  have hdata₂ : P.dataOffset + 4 * 3 ≤ P.cmsgLen sizeofUcred := data_le_cmsgLen P sizeofUcred
  have hspace₁ := cmsgLen_le_cmsgSpace P (sizeofInt * n)
  have hspace₂ := cmsgLen_le_cmsgSpace P sizeofUcred
  refine ⟨Nat.le_add_right _ _, P.header_le_data, hdata₁.trans hspace₁, ?_⟩
  rw [Nat.add_assoc]
  exact Nat.add_le_add_left (hdata₂.trans hspace₂) _

theorem length_headerBytes (P : Platform) (type : BitVec 32) (len : ℕ) :
    (headerBytes P type len).length = P.sizeofCmsghdr := by
  rw [headerBytes, List.length_append, length_leBytes, length_flatMap_intBytes]
  rfl

/-- Behind the first header, and with zeros in its place, the second header is found. -/
theorem cmsgNxthdr_second {n : ℕ} {m : List UInt8} (hm : m.length = controlMsgSize P n)
    (hlt : P.cmsgLen (sizeofInt * n) < 256 ^ P.sizeofSizeT)
    (hfirst : Holds m 0 (headerBytes P SCM_RIGHTS (P.cmsgLen (sizeofInt * n))))
    (hzero : Holds m (P.cmsgSpace (sizeofInt * n)) (leBytes P.sizeofSizeT 0)) :
    cmsgNxthdr P ⟨m, controlMsgSize P n⟩ 0 = some (some (P.cmsgSpace (sizeofInt * n))) := by
  obtain ⟨hsizeT, hheader, hdata, hend⟩ := layout_bounds P n
  have hload := (load_header hfirst (by omega) hlt).1
  have hlen₀ : loadLen P m (P.cmsgSpace (sizeofInt * n)) = some 0 :=
    loadLen_eq hzero (by omega) (Nat.pos_of_ne_zero (by positivity))
  have halign : 0 + P.cmsgAlign (P.cmsgLen (sizeofInt * n)) = P.cmsgSpace (sizeofInt * n) := by
    rw [Nat.zero_add, cmsgAlign_cmsgLen]
  have hroom : P.cmsgAlign 0 ≤ P.cmsgSpace sizeofUcred :=
    (roundUp_mono (Nat.zero_le _)).trans (Nat.le_add_right _ _)
  have heq := @cmsgNxthdr_eq P 0 _ ⟨m, controlMsgSize P n⟩ hload (header_le_cmsgLen P _)
  rw [halign] at heq
  exact heq (by dsimp only; omega) hlen₀ (Nat.add_le_add_left hroom _)

/-- The four parts that are written do not overlap. -/
theorem encode_layout (hpos : fds.length ≠ 0) (hmax : fds.length ≤ MAX_FDS)
    (hfds : ∀ fd ∈ fds, fd ≠ -1) :
    ∃ m, encode P fds pid uid gid = .ok ⟨⟨m, controlMsgSize P fds.length⟩, 0,
        P.cmsgSpace (sizeofInt * fds.length)⟩ ∧ Layout P fds pid uid gid m := by
  obtain ⟨hlt, -⟩ := @cmsgLen_lt P fds hmax
  obtain ⟨hsizeT, hheader, hdata, hend⟩ := layout_bounds P fds.length
  have hlen := length_headerBytes P
  generalize hm : List.replicate (controlMsgSize P fds.length) (0 : UInt8) = m₀
  have hlen₀ : m₀.length = controlMsgSize P fds.length := by rw [← hm, List.length_replicate]
  have hzero : Holds m₀ (P.cmsgSpace (sizeofInt * fds.length)) (leBytes P.sizeofSizeT 0) := by
    rw [← hm, leBytes_zero]
    exact holds_replicate _ _ (by omega)
  have hfirsthdr : cmsgFirsthdr P ⟨m₀, controlMsgSize P fds.length⟩ = some 0 :=
    if_pos (by dsimp only; omega)
  obtain ⟨m₁, hset₁, hframe₁, hfirst⟩ := @setHeader_spec P m₀ 0 (by omega) SCM_RIGHTS
    (P.cmsgLen (sizeofInt * fds.length))
  have hlen₁ : m₁.length = controlMsgSize P fds.length := hframe₁.length.trans hlen₀
  have hnext := cmsgNxthdr_second hlen₁ hlt hfirst (hzero.frame hframe₁ (.inr (by omega)))
  generalize hs : P.cmsgSpace (sizeofInt * fds.length) = second at *
  obtain ⟨m₂, hset₂, hframe₂, hsecond⟩ := @setHeader_spec P m₁ second (by omega) SCM_CREDENTIALS
    (P.cmsgLen sizeofUcred)
  have hlen₂ : m₂.length = controlMsgSize P fds.length := hframe₂.length.trans hlen₁
  obtain ⟨m₃, hset₃, hframe₃, hucred⟩ : ∃ m₃, storeInts m₂ (second + P.dataOffset) [pid, uid, gid] =
      some m₃ ∧ Frame m₂ m₃ (second + P.dataOffset) (4 * 3) ∧
        Holds m₃ (second + P.dataOffset) ([pid, uid, gid].flatMap intBytes) :=
    storeInts_spec (show _ + 4 * 3 ≤ _ by omega)
  have hlen₃ : m₃.length = controlMsgSize P fds.length := hframe₃.length.trans hlen₂
  obtain ⟨m₄, hset₄, hframe₄, hfdList⟩ := @storeInts_spec m₃ P.dataOffset fds (by omega)
  refine ⟨m₄, ?_, hframe₄.length.trans hlen₃, ?_, hfdList, ?_, ?_⟩
  · simp only [encode, if_neg hpos, hm, hfirsthdr, hset₁, hnext, hset₂, hset₃, orSegv_some, ok_bind,
      Option.join_some, Nat.zero_add, storeFds_eq hfds, hset₄]
  · refine Holds.frame ?_ hframe₄ (.inl (by rw [hlen]; omega))
    refine Holds.frame ?_ hframe₃ (.inl (by rw [hlen]; omega))
    exact hfirst.frame hframe₂ (.inl (by rw [hlen]; omega))
  · rw [hs]
    refine Holds.frame ?_ hframe₄ (.inr (by omega))
    exact hsecond.frame hframe₃ (.inl (by rw [hlen]; omega))
  · rw [hs]
    exact hucred.frame hframe₄ (.inr (by omega))

/-- The count comes back from the length of the block. -/
theorem fdCnt_eq (hmax : fds.length ≤ MAX_FDS) :
    ((((P.cmsgLen (sizeofInt * fds.length) : ℤ) - P.cmsgLen 0) % 256 ^ P.sizeofSizeT) /
      sizeofInt).bmod (2 ^ 32) = fds.length := by
  have hlt := (@cmsgLen_lt P fds hmax).1
  have hmax' : fds.length ≤ 1024 := hmax
  have hdiff : (P.cmsgLen (sizeofInt * fds.length) : ℤ) - P.cmsgLen 0 =
      ((4 * fds.length : ℕ) : ℤ) := by
    simp [Platform.cmsgLen, sizeofInt]
  have hmod : ((4 * fds.length : ℕ) : ℤ) % 256 ^ P.sizeofSizeT = (4 * fds.length : ℕ) := by
    have hlt' : 4 * fds.length < 256 ^ P.sizeofSizeT := (Nat.le_add_left _ _).trans_lt hlt
    exact_mod_cast Nat.mod_eq_of_lt hlt'
  have hdiv : ((4 * fds.length : ℕ) : ℤ) / sizeofInt = fds.length := by
    rw [show (sizeofInt : ℤ) = 4 from rfl]
    omega
  rw [hdiff, hmod, hdiv]
  exact Int.bmod_eq_of_le (by omega) (by omega)

section Decode

variable {m : List UInt8} (hmax : fds.length ≤ MAX_FDS) (h : Layout P fds pid uid gid m)
include hmax h

theorem decodeBlock_rights : decodeBlock P m 0 = .ok (.rights fds.length fds) := by
  have hsize := h.length
  obtain ⟨-, hheader, hdata, hend⟩ := layout_bounds P fds.length
  obtain ⟨hlen, hlevel, htype⟩ := load_header h.first (by omega) (cmsgLen_lt hmax).1
  have hfds : loadInts m (0 + P.dataOffset) fds.length = some fds := by
    rw [Nat.zero_add]
    exact loadInts_eq h.fdList (by omega)
  simp only [decodeBlock, hlen, hlevel, htype, orSegv_some, ok_bind, ne_eq, not_true_eq_false,
    if_false, if_true, fdCnt_eq hmax, Int.toNat_natCast, hfds]

theorem decodeBlock_credentials :
    decodeBlock P m (P.cmsgSpace (sizeofInt * fds.length)) = .ok (.credentials pid uid gid) := by
  have hsize := h.length
  obtain ⟨-, hheader, -, hend⟩ := layout_bounds P fds.length
  have hint : sizeofInt = 4 := rfl
  obtain ⟨hlen, hlevel, htype⟩ := load_header h.second (by omega) (cmsgLen_lt hmax).2
  have hpid := h.ucred
  rw [List.flatMap_cons] at hpid
  have huid := hpid.right
  rw [length_intBytes, List.flatMap_cons] at huid
  have hgid := huid.right
  rw [length_intBytes, List.flatMap_cons, List.flatMap_nil, List.append_nil, Nat.add_assoc] at hgid
  have hpid' := loadInt_eq hpid.left (by omega)
  have huid' : loadInt m (P.cmsgSpace (sizeofInt * fds.length) + P.dataOffset + sizeofInt) =
      some uid := loadInt_eq huid.left (by omega)
  have hgid' : loadInt m (P.cmsgSpace (sizeofInt * fds.length) + P.dataOffset + 2 * sizeofInt) =
      some gid := loadInt_eq hgid (by omega)
  have hne : SCM_CREDENTIALS ≠ SCM_RIGHTS := by decide
  simp only [decodeBlock, hlen, hlevel, htype, orSegv_some, ok_bind, ne_eq, not_true_eq_false,
    if_false, if_true, hne, hpid', huid', hgid']

theorem decode_layout : decode P ⟨m, controlMsgSize P fds.length⟩ =
    .ok [.rights fds.length fds, .credentials pid uid gid] := by
  have hsize := h.length
  have hsize' : controlMsgSize P fds.length =
    P.cmsgSpace (sizeofInt * fds.length) + P.cmsgSpace sizeofUcred := rfl
  obtain ⟨-, hheader, hdata, hend⟩ := layout_bounds P fds.length
  have hlen₁ := (load_header h.first (by omega) (cmsgLen_lt hmax).1).1
  have hlen₂ := (load_header h.second (by omega) (cmsgLen_lt hmax).2).1
  have hnext : cmsgNxthdr P ⟨m, controlMsgSize P fds.length⟩ 0 =
      some (some (P.cmsgSpace (sizeofInt * fds.length))) := by
    have heq := @cmsgNxthdr_eq P 0 _ ⟨m, controlMsgSize P fds.length⟩ hlen₁
      (header_le_cmsgLen P _)
    rw [Nat.zero_add, cmsgAlign_cmsgLen] at heq
    refine heq (by dsimp only; omega) hlen₂ ?_
    rw [cmsgAlign_cmsgLen]
    exact hsize'.ge
  have hlast : cmsgNxthdr P ⟨m, controlMsgSize P fds.length⟩
      (P.cmsgSpace (sizeofInt * fds.length)) = some none := by
    refine cmsgNxthdr_end hlen₂ ?_
    have hhdr : 0 < P.sizeofCmsghdr := Nat.add_pos_right _ (by decide)
    rw [cmsgAlign_cmsgLen]
    dsimp only
    omega
  obtain ⟨fuel, hfuel⟩ : ∃ fuel, controlMsgSize P fds.length = fuel + 2 := by
    have hhdr : 8 ≤ P.sizeofCmsghdr := Nat.le_add_left _ _
    exact ⟨controlMsgSize P fds.length - 2, by omega⟩
  have hfirst : cmsgFirsthdr P ⟨m, controlMsgSize P fds.length⟩ = some 0 :=
    if_pos (by dsimp only; omega)
  rw [decode, hfirst]
  dsimp only
  rw [hfuel] at hnext hlast ⊢
  simp only [walk, decodeBlock_rights hmax h, decodeBlock_credentials hmax h, hnext, hlast,
    orSegv_some, ok_bind]

end Decode

end Blocks

/-- What the receiver finds in the buffer of the sender is what the sender has put in. -/
theorem scm_multi_round_trip (P : Platform) (fds : List (BitVec 32)) (pid uid gid : BitVec 32)
    (hpos : 1 ≤ fds.length) (hmax : fds.length ≤ MAX_FDS) (hfds : ∀ fd ∈ fds, fd ≠ -1) :
    ∃ r, encode P fds pid uid gid = .ok r ∧
      r.msgh.control.length = controlMsgSize P fds.length ∧
      r.msgh.controllen = controlMsgSize P fds.length ∧
      r.first + P.cmsgLen (sizeofInt * fds.length) ≤ r.second ∧
      r.second + P.cmsgLen sizeofUcred ≤ controlMsgSize P fds.length ∧
      decode P r.msgh = .ok [.rights fds.length fds, .credentials pid uid gid] ∧
      controlMsgSize P fds.length ≤ recvControlMsgSize P := by
  obtain ⟨m, hencode, hlayout⟩ := @encode_layout P fds pid uid gid (by omega) hmax hfds
  refine ⟨_, hencode, hlayout.length, rfl, ?_, ?_, decode_layout hmax hlayout,
    controlMsgSize_le P hmax⟩
  · rw [Nat.zero_add]
    exact cmsgLen_le_cmsgSpace P _
  · exact Nat.add_le_add_left (cmsgLen_le_cmsgSpace P _) _

/-- The platform of a 64-bit system. -/
def lp64 : Platform where
  align := 8
  sizeofSizeT := 8
  dataOffset := 16
  checksNext := true
  align_pos := by decide
  header_le_data := by decide
  data_le := by decide
  fits := by decide

theorem scm_multi_round_trip_odd :
    ∃ r, encode lp64 [3, 4, 5] 100 1000 1001 = .ok r ∧
      decode lp64 r.msgh = .ok [.rights 3 [3, 4, 5], .credentials 100 1000 1001] := by
  obtain ⟨r, hr, -, -, -, -, hdecode, -⟩ := scm_multi_round_trip lp64 [3, 4, 5] 100 1000 1001
    (by decide) (show 3 ≤ 1024 by omega) (by simp)
  exact ⟨r, hr, hdecode⟩

end Tlpi.Sockets.ScmMulti
