import Tlpi.Lib.Memory
import Tlpi.Lib.OnesComplement
import Tlpi.Lib.Strtol

/-! `sockets/raw_send_udp.c` on a little-endian machine. The IP header is at the start of the buffer
`ipDatagram`, the UDP header 20 bytes behind it. An access outside of a buffer is `none`. -/

namespace Tlpi.Sockets.RawSendUdp
open Lib Lib.Memory

def IP_MAXPACKET : ℕ := 65535
def IPv4_HEADER_LEN : ℕ := 20
def UDP_HEADER_LEN : ℕ := 8
def IPPROTO_UDP : UInt8 := 17

/-- `struct in_addr` -/
structure InAddr where
  a : UInt8
  b : UInt8
  c : UInt8
  d : UInt8

def InAddr.bytes (x : InAddr) : List UInt8 := [x.a, x.b, x.c, x.d]

/-! ## `checksum()` -/

/-- The sum of the words in a `uint32_t`. -/
def sumWords : List UInt8 → ℕ → ℕ
  | a :: b :: bytes, sum => sumWords bytes ((sum + (a.toNat + 256 * b.toNat)) % 2 ^ 32)
  | [a], sum => (sum + a.toNat) % 2 ^ 32
  | [], sum => sum

def foldSum (sum : ℕ) : ℕ :=
  if sum / 65536 = 0 then sum else foldSum (sum % 65536 + sum / 65536)

def checksum (bytes : List UInt8) : ℕ := (2 ^ 32 - 1 - foldSum (sumWords bytes 0)) % 65536

/-! ## The datagram -/

/-- The two bytes of a `uint16_t` change places. -/
def htons (v : ℕ) : ℕ := v % 256 * 256 + v / 256 % 256

def ntohs : ℕ → ℕ := htons

/-- The assignments of `buildIpHeader()`. -/
def ipHeader (src dst : InAddr) : List (ℕ × List UInt8) :=
  [(0, [0x45]), -- `ip_hl` and `ip_v`
    (1, [0]), -- `ip_tos`
    (4, leBytes 2 (htons 0)), -- `ip_id`
    (6, leBytes 2 (htons 0)), -- `ip_off`
    (8, [255]), -- `ip_ttl`
    (9, [IPPROTO_UDP]), -- `ip_p`
    (12, src.bytes), -- `ip_src`
    (16, dst.bytes)] -- `ip_dst`

def buildIpHeader (m : List UInt8) (src dst : InAddr) : Option (List UInt8) :=
  storeAll m (ipHeader src dst)

/-- The assignments to the buffer of `udpChecksum()`. -/
def pseudoDatagram (srcAddress dstAddress protocol udpLength dgram : List UInt8)
    (checksumLen : ℕ) : List (ℕ × List UInt8) :=
  [(0, srcAddress), (4, dstAddress), (8, [0]), (9, protocol), (10, udpLength),
    (12, dgram), -- the `memcpy()`
    (18, leBytes 2 0)] ++ -- `udpDgram->check`
    if checksumLen % 2 = 1 then [(checksumLen, [0])] else []

def udpChecksum (m buf : List UInt8) : Option ℕ := do
  let srcAddress ← load m 12 4
  let dstAddress ← load m 16 4
  let protocol ← load m 9 1
  let len ← load m 24 2
  let dgram ← load m 20 (leValue len)
  let checksumLen := 12 + ntohs (leValue len)
  let buf ← storeAll buf (pseudoDatagram srcAddress dstAddress protocol len dgram checksumLen)
  let bytes ← load buf 0 (checksumLen + checksumLen % 2)
  some (checksum bytes)

/-- A port number as `htons()` gets it. -/
def portOf (port : List Char) : ℕ := (atoi port % 2 ^ 16).toNat

/-- The assignments of `buildUdpDatagram()` before the checksum. -/
def udpDatagram (srcPort dstPort : List Char) (data : List UInt8) : List (ℕ × List UInt8) :=
  let udpDataLen := data.length % 2 ^ 16
  [(28, data.take udpDataLen), (20, leBytes 2 (htons (portOf srcPort))),
    (22, leBytes 2 (htons (portOf dstPort))),
    (24, leBytes 2 (htons ((UDP_HEADER_LEN + udpDataLen) % 2 ^ 16)))]

def buildUdpDatagram (m buf : List UInt8) (srcPort dstPort : List Char) (data : List UInt8) :
    Option (List UInt8) := do
  let m ← storeAll m (udpDatagram srcPort dstPort data)
  let check ← udpChecksum m buf
  store m 26 (leBytes 2 check)

/-- `ipDatagram` before it is sent; `m` and `buf` are what is in the two buffers before. -/
def build (src dst : InAddr) (srcPort dstPort : List Char) (data m buf : List UInt8) :
    Option (List UInt8) := do
  let m ← buildIpHeader m src dst
  buildUdpDatagram m buf srcPort dstPort data

/-! ## What `checksum()` computes -/

theorem sumWords_eq (bytes : List UInt8) (sum : ℕ) :
    sumWords bytes sum % 2 ^ 32 = (sum + leSum bytes) % 2 ^ 32 := by
  induction bytes, sum using sumWords.induct with
  | case1 a b bytes sum ih =>
    rw [sumWords, ih, leSum_cons_cons]
    omega
  | case2 a sum =>
    rw [sumWords]
    simp [leSum, byteSums]
  | case3 sum => rfl

theorem sumWords_lt (bytes : List UInt8) {sum : ℕ} (h : sum < 2 ^ 32) :
    sumWords bytes sum < 2 ^ 32 := by
  induction bytes, sum using sumWords.induct with
  | case1 a b bytes sum ih => exact ih (Nat.mod_lt _ (by decide))
  | case2 a sum => exact Nat.mod_lt _ (by decide)
  | case3 sum => exact h

theorem foldSum_spec (sum : ℕ) :
    foldSum sum ≤ 65535 ∧ foldSum sum ≡ sum [MOD 65535] ∧ (foldSum sum = 0 ↔ sum = 0) := by
  induction sum using foldSum.induct with
  | case1 sum h =>
    rw [foldSum, if_pos h]
    exact ⟨by omega, rfl, Iff.rfl⟩
  | case2 sum h ih =>
    obtain ⟨h1, h2, h3⟩ := ih
    rw [foldSum, if_neg h]
    refine ⟨h1, h2.trans (carry_modEq sum), ?_⟩
    rw [h3]
    omega

/-- The sum of a packet fits into 32 bits, and the checksum is the complement of what its carries
are folded to. -/
theorem checksum_spec {bytes : List UInt8} (h : bytes.length ≤ 65536) :
    ∃ f, checksum bytes + f = 65535 ∧ f ≡ leSum bytes [MOD 65535] ∧ (f = 0 ↔ leSum bytes = 0) := by
  have hle := leSum_le bytes
  have hsum : sumWords bytes 0 = leSum bytes := by
    have hmod := sumWords_eq bytes 0
    have hlt := sumWords_lt bytes (show 0 < 2 ^ 32 by decide)
    omega
  obtain ⟨h1, h2, h3⟩ := foldSum_spec (leSum bytes)
  refine ⟨foldSum (leSum bytes), ?_, h2, h3⟩
  rw [checksum, hsum]
  omega

/-! ## The buffer before the checksum -/

/-- A number in network byte order. -/
def be16 (v : ℕ) : List UInt8 := [UInt8.ofNat (v / 256), UInt8.ofNat v]

theorem htons_div_mod (v : ℕ) : htons v / 256 = v % 256 ∧ htons v % 256 = v / 256 % 256 := by
  have hsplit : ∀ a b : ℕ, b < 256 → (a * 256 + b) / 256 = a ∧ (a * 256 + b) % 256 = b := by
    intro a b hb
    omega
  exact hsplit _ _ (Nat.mod_lt _ (by decide))

theorem leBytes_htons (v : ℕ) : leBytes 2 (htons v) = be16 v := by
  obtain ⟨hdiv, hmod⟩ := htons_div_mod v
  have hlow : UInt8.ofNat (htons v) = UInt8.ofNat (v / 256) := by
    apply UInt8.toNat_inj.mp
    rw [UInt8.toNat_ofNat', UInt8.toNat_ofNat']
    exact hmod
  have hhigh : UInt8.ofNat (htons v / 256) = UInt8.ofNat v := by
    apply UInt8.toNat_inj.mp
    rw [UInt8.toNat_ofNat', UInt8.toNat_ofNat', hdiv]
    exact Nat.mod_mod _ _
  rw [leBytes, leBytes, leBytes, hlow, hhigh, be16]

theorem htons_lt (v : ℕ) : htons v < 65536 := by
  unfold htons
  omega

theorem htons_htons {v : ℕ} (h : v < 65536) : htons (htons v) = v := by
  obtain ⟨hdiv, hmod⟩ := htons_div_mod v
  show htons v % 256 * 256 + htons v / 256 % 256 = v
  have hlt : v / 256 < 256 := Nat.div_lt_of_lt_mul h
  rw [hdiv, hmod, Nat.mod_eq_of_lt hlt, Nat.mod_mod, Nat.div_add_mod']

/-- The UDP header without the checksum. -/
def ports (srcPort dstPort : List Char) (len : ℕ) : List UInt8 :=
  be16 (portOf srcPort) ++ (be16 (portOf dstPort) ++ be16 len)

/-- What is in `ipDatagram` when the checksum is computed. -/
structure Built (src dst : InAddr) (srcPort dstPort : List Char) (data m : List UInt8) : Prop where
  length : m.length = IP_MAXPACKET
  protocol : Holds m 9 [IPPROTO_UDP]
  srcAddress : Holds m 12 src.bytes
  dstAddress : Holds m 16 dst.bytes
  ports : Holds m 20 (ports srcPort dstPort (8 + data.length))
  payload : Holds m 28 data

section Build

variable {src dst : InAddr} {srcPort dstPort : List Char} {data m : List UInt8}

theorem build_eq (hdata : data.length ≤ 65507) (hm : m.length = IP_MAXPACKET) :
    ∃ m₁, Built src dst srcPort dstPort data m₁ ∧ ∀ buf,
      build src dst srcPort dstPort data m buf =
        (udpChecksum m₁ buf).bind fun check => store m₁ 26 (leBytes 2 check) := by
  have hlen : m.length = 65535 := hm
  have hudpLen : data.length % 2 ^ 16 = data.length := by omega
  have hL : (UDP_HEADER_LEN + data.length) % 2 ^ 16 = 8 + data.length := by
    unfold UDP_HEADER_LEN
    omega
  have hudp : udpDatagram srcPort dstPort data = [(28, data), (20, be16 (portOf srcPort)),
      (22, be16 (portOf dstPort)), (24, be16 (8 + data.length))] := by
    simp only [udpDatagram, hudpLen, hL, List.take_length, leBytes_htons]
  have hall : ∃ m₁, storeAll m (ipHeader src dst ++ udpDatagram srcPort dstPort data) = some m₁ ∧
      m₁.length = m.length ∧
      ∀ i, Untouched i (ipHeader src dst ++ udpDatagram srcPort dstPort data) → m₁[i]? = m[i]? := by
    apply storeAll_spec
    simp only [hudp, ipHeader, InAddr.bytes, be16, leBytes_htons, List.cons_append, List.nil_append,
      List.forall_mem_cons, List.length_cons, List.length_nil, hlen]
    refine ⟨?_, ?_, ?_, ?_, ?_, ?_, ?_, ?_, ?_, ?_, ?_, ?_, List.forall_mem_nil _⟩ <;> omega
  obtain ⟨m₁, hstore, hlen₁, -⟩ := hall
  have hholds {w : ℕ × List UInt8}
      (hw : w ∈ ipHeader src dst ++ udpDatagram srcPort dstPort data) : Holds m₁ w.1 w.2 := by
    refine holds_of_pairwise hstore ?_ hw
    rw [hudp]
    simp [ipHeader, InAddr.bytes, be16]
  refine ⟨m₁, ⟨hlen₁.trans hm, ?_, ?_, ?_, ?_, ?_⟩, ?_⟩
  · exact @hholds (9, [IPPROTO_UDP]) (by simp [ipHeader])
  · exact @hholds (12, src.bytes) (by simp [ipHeader])
  · exact @hholds (16, dst.bytes) (by simp [ipHeader])
  · have hsrc := @hholds (20, be16 (portOf srcPort)) (by simp [hudp])
    have hdst := @hholds (22, be16 (portOf dstPort)) (by simp [hudp])
    have hlength := @hholds (24, be16 (8 + data.length)) (by simp [hudp])
    exact hsrc.append (hdst.append hlength)
  · exact @hholds (28, data) (by simp [hudp])
  · intro buf
    rw [storeAll_append, Option.bind_eq_some_iff] at hstore
    obtain ⟨m₀, hip, hudp₁⟩ := hstore
    simp only [build, buildIpHeader, hip, buildUdpDatagram, hudp₁, Option.bind_eq_bind,
      Option.bind_some]

end Build

/-! ## The checksum of the datagram -/

def pseudoheader (src dst : InAddr) (len : ℕ) : List UInt8 :=
  src.bytes ++ (dst.bytes ++ ([0, IPPROTO_UDP] ++ be16 len))

/-- The pseudoheader and the datagram sum up to `0xffff`. -/
structure Valid (src dst : InAddr) (data m : List UInt8) : Prop where
  len : Holds m 24 (be16 (8 + data.length))
  payload : Holds m 28 data
  checksum : onesSum (beWords (pseudoheader src dst (8 + data.length) ++
    (m.drop 20).take (8 + data.length))) = 65535

/-- The sum without the checksum. -/
def wordSum (src dst : InAddr) (srcPort dstPort : List Char) (data : List UInt8) : ℕ :=
  leSum (pseudoheader src dst (8 + data.length)) +
    (leSum (ports srcPort dstPort (8 + data.length)) + leSum data)

theorem leSum_leBytes {v : ℕ} (h : v < 65536) : leSum (leBytes 2 v) = v := by
  simp only [leBytes, leSum, byteSums, UInt8.toNat_ofNat']
  omega

section Datagram

variable {src dst : InAddr} {srcPort dstPort : List Char} {data m m' : List UInt8}

/-- The sum with a number at the place of the checksum. -/
theorem leSum_datagram {check : ℕ} (h : check < 65536) (rest : List UInt8) :
    leSum (pseudoheader src dst (8 + data.length) ++
      (ports srcPort dstPort (8 + data.length) ++ (leBytes 2 check ++ rest))) =
    leSum (pseudoheader src dst (8 + data.length)) +
      (leSum (ports srcPort dstPort (8 + data.length)) + (check + leSum rest)) := by
  have hpseudo : (pseudoheader src dst (8 + data.length)).length = 12 := rfl
  have hports : (ports srcPort dstPort (8 + data.length)).length = 6 := rfl
  rw [leSum_append (by rw [hpseudo]), leSum_append (by rw [hports]),
    leSum_append (by rw [length_leBytes]), leSum_leBytes h]

theorem valid_iff (h : Built src dst srcPort dstPort data m) (hdata : data.length ≤ 65507)
    {check : ℕ} (hcheck : check < 65536) (hstore : store m 26 (leBytes 2 check) = some m') :
    Valid src dst data m' ↔
      wordSum src dst srcPort dstPort data + check ≡ 0 [MOD 65535] ∧
        wordSum src dst srcPort dstPort data + check ≠ 0 := by
  have hlen : m.length = 65535 := h.length
  obtain ⟨hframe, hholds⟩ := store_some hstore
  rw [length_leBytes] at hframe
  have hports : Holds m' 20 (ports srcPort dstPort (8 + data.length)) :=
    h.ports.frame hframe (.inl le_rfl)
  have hpayload : Holds m' 28 data := h.payload.frame hframe (.inr le_rfl)
  have hdgram : (m'.drop 20).take (8 + data.length) =
      ports srcPort dstPort (8 + data.length) ++ (leBytes 2 check ++ data) := by
    have hall : Holds m' 20
        (ports srcPort dstPort (8 + data.length) ++ (leBytes 2 check ++ data)) :=
      hports.append (hholds.append hpayload)
    have hsize : (ports srcPort dstPort (8 + data.length) ++ (leBytes 2 check ++ data)).length =
        8 + data.length := by
      rw [List.length_append, List.length_append, length_leBytes]
      exact (Nat.add_assoc 6 2 _).symm
    have hload := load_eq hall (by rw [hsize, hframe.length]; omega)
    rw [hsize] at hload
    obtain ⟨-, heq⟩ := Option.ite_none_right_eq_some.mp hload
    exact Option.some.inj heq
  have hsum : leSum (pseudoheader src dst (8 + data.length) ++
      (m'.drop 20).take (8 + data.length)) = wordSum src dst srcPort dstPort data + check := by
    rw [hdgram, leSum_datagram hcheck, wordSum]
    ring
  have hiff := onesSum_beWords_iff (pseudoheader src dst (8 + data.length) ++
    (m'.drop 20).take (8 + data.length))
  rw [hsum] at hiff
  constructor
  · intro hvalid
    exact hiff.mp hvalid.checksum
  · intro hmod
    exact ⟨hports.right.right, hpayload, hiff.mpr hmod⟩

/-- The number of bytes to checksum, with the padding. -/
def checksumBytes (data : List UInt8) : ℕ := 20 + data.length + (20 + data.length) % 2

/-- What `udpChecksum()` does once the datagram has been built. -/
theorem udpChecksum_eq (h : Built src dst srcPort dstPort data m) (hdata : data.length ≤ 65507)
    (buf : List UInt8) : udpChecksum m buf =
      (load m 20 (htons (8 + data.length))).bind fun dgram =>
        ((storeAll buf (pseudoDatagram src.bytes dst.bytes [IPPROTO_UDP] (be16 (8 + data.length))
          dgram (20 + data.length))).bind fun b => load b 0 (checksumBytes data)).map checksum := by
  have hlen : m.length = 65535 := h.length
  have hsrc : load m 12 4 = some src.bytes :=
    load_eq h.srcAddress (show 12 + 4 ≤ m.length by omega)
  have hdst : load m 16 4 = some dst.bytes :=
    load_eq h.dstAddress (show 16 + 4 ≤ m.length by omega)
  have hproto : load m 9 1 = some [IPPROTO_UDP] :=
    load_eq h.protocol (show 9 + 1 ≤ m.length by omega)
  have hlength : load m 24 2 = some (be16 (8 + data.length)) :=
    load_eq h.ports.right.right (show 24 + 2 ≤ m.length by omega)
  have hvalue : leValue (be16 (8 + data.length)) = htons (8 + data.length) := by
    rw [← leBytes_htons, leValue_leBytes_of_lt (htons_lt _)]
  have hback : 12 + ntohs (htons (8 + data.length)) = 20 + data.length := by
    rw [ntohs, htons_htons (by omega)]
    omega
  simp only [udpChecksum, hsrc, hdst, hproto, hlength, hvalue, hback, Option.bind_eq_bind,
    Option.bind_some]
  refine congrArg _ (funext fun dgram => ?_)
  rw [Option.map_bind]
  exact congrArg _ (funext fun b => Option.map_eq_bind.symm)

/-- What holds of the offsets and lengths of all stores of `udpChecksum()`. -/
theorem forall_mem_pseudoDatagram {src dst : InAddr} {dgram : List UInt8} {v checksumLen : ℕ}
    {p : ℕ → ℕ → Prop} (hheader : p 0 4 ∧ p 4 4 ∧ p 8 1 ∧ p 9 1 ∧ p 10 2)
    (hdgram : p 12 dgram.length) (hcheck : p 18 2) (hpad : checksumLen % 2 = 1 → p checksumLen 1) :
    ∀ w ∈ pseudoDatagram src.bytes dst.bytes [IPPROTO_UDP] (be16 v) dgram checksumLen,
      p w.1 w.2.length := by
  obtain ⟨h0, h4, h8, h9, h10⟩ := hheader
  unfold pseudoDatagram
  rw [List.forall_mem_append]
  constructor
  · simp only [List.forall_mem_cons, length_leBytes]
    exact ⟨h0, h4, h8, h9, h10, hdgram, hcheck, List.forall_mem_nil _⟩
  · split_ifs with hodd
    · exact List.forall_mem_singleton.mpr (hpad hodd)
    · exact List.forall_mem_nil _

section Stores

variable (hdata : data.length ≤ 65507) {buf dgram : List UInt8} (hbuf : buf.length = IP_MAXPACKET)
  (hdgram : dgram.length ≤ 65515)
include hdata hbuf hdgram

theorem storeAll_pseudoDatagram :
    ∃ b bytes, storeAll buf (pseudoDatagram src.bytes dst.bytes [IPPROTO_UDP]
        (be16 (8 + data.length)) dgram (20 + data.length)) = some b ∧
      load b 0 (checksumBytes data) = some bytes ∧ b.length = IP_MAXPACKET ∧
      bytes.length = checksumBytes data ∧ Holds b 0 bytes ∧
      ∀ i, Untouched i (pseudoDatagram src.bytes dst.bytes [IPPROTO_UDP] (be16 (8 + data.length))
        dgram (20 + data.length)) → b[i]? = buf[i]? := by
  have hbuf' : buf.length = 65535 := hbuf
  have hin : ∀ w ∈ pseudoDatagram src.bytes dst.bytes [IPPROTO_UDP] (be16 (8 + data.length)) dgram
      (20 + data.length), w.1 + w.2.length ≤ buf.length :=
    @forall_mem_pseudoDatagram src dst dgram _ _ (fun off n => off + n ≤ buf.length)
      (by omega) (by omega) (by omega) (by omega)
  obtain ⟨b, hstore, hlen, hout⟩ := storeAll_spec hin
  have hroom : 0 + checksumBytes data ≤ b.length := by
    unfold checksumBytes
    omega
  obtain ⟨bytes, hload, hbytes, hholds⟩ := load_spec hroom
  exact ⟨b, bytes, hstore, hload, hlen.trans hbuf, hbytes, hholds, hout⟩

end Stores

theorem udpChecksum_out_of_bounds (h : Built src dst srcPort dstPort data m)
    (hdata : data.length ≤ 65507) (hn : 65515 < htons (8 + data.length)) (buf : List UInt8) :
    udpChecksum m buf = none := by
  have hlen : m.length = 65535 := h.length
  have hload : load m 20 (htons (8 + data.length)) = none := if_neg (by omega)
  rw [udpChecksum_eq h hdata, hload]
  rfl

/-- If the copy stops before the last byte, this byte is taken from what was in the buffer. -/
theorem udpChecksum_stale (h : Built src dst srcPort dstPort data m) (hdata : data.length ≤ 65507)
    (hn : htons (8 + data.length) < 8 + data.length) {buf : List UInt8}
    (hbuf : buf.length = IP_MAXPACKET) (hzero : buf[19 + data.length]? = some 0) :
    ∃ bytes, bytes.length ≤ 65536 ∧ bytes[19 + data.length]? = some 0 ∧
      udpChecksum m buf = some (checksum bytes) ∧
      udpChecksum m (buf.set (19 + data.length) 1) =
        some (checksum (bytes.set (19 + data.length) 1)) := by
  have hlen : m.length = 65535 := h.length
  have hL : 256 ≤ 8 + data.length := by
    unfold htons at hn
    omega
  obtain ⟨dgram, hload, hdgram, -⟩ : ∃ dgram, load m 20 (htons (8 + data.length)) = some dgram ∧
      dgram.length = htons (8 + data.length) ∧ Holds m 20 dgram := load_spec (by omega)
  obtain ⟨b, bytes, hstore, hbytes, hblen, hbyteslen, hholds, hout⟩ :=
    @storeAll_pseudoDatagram src dst data hdata buf dgram hbuf (by omega)
  have huntouched : Untouched (19 + data.length) (pseudoDatagram src.bytes dst.bytes [IPPROTO_UDP]
      (be16 (8 + data.length)) dgram (20 + data.length)) :=
    @forall_mem_pseudoDatagram src dst dgram _ _
      (fun off n => 19 + data.length < off ∨ off + n ≤ 19 + data.length)
      (by omega) (by omega) (by omega) (by omega)
  refine ⟨bytes, ?_, ?_, ?_, ?_⟩
  · rw [hbyteslen, checksumBytes]
    omega
  · have hk : 19 + data.length < bytes.length := by
      rw [hbyteslen, checksumBytes]
      omega
    rw [← hholds _ hk, Nat.zero_add, hout _ huntouched, hzero]
  · rw [udpChecksum_eq h hdata, hload, Option.bind_some, hstore, Option.bind_some, hbytes,
      Option.map_some]
  · have hset := load_set b 0 (checksumBytes data) (19 + data.length) 1
    rw [Nat.zero_add, hbytes, Option.map_some] at hset
    rw [udpChecksum_eq h hdata, hload, Option.bind_some, storeAll_set huntouched, hstore,
      Option.map_some, Option.bind_some, hset, Option.map_some]

/-- The zero fill to a 16-bit multiple. -/
def padding (data : List UInt8) : List UInt8 := List.replicate ((20 + data.length) % 2) 0

theorem leSum_padding (data : List UInt8) : leSum (data ++ padding data) = leSum data := by
  unfold padding
  rcases Nat.mod_two_eq_zero_or_one (20 + data.length) with heven | hodd
  · rw [heven, List.replicate_zero, List.append_nil]
  · rw [hodd, List.replicate_one, leSum_append_zero]

/-- The store of the zero fill. -/
def fill (data : List UInt8) : List (ℕ × List UInt8) :=
  if (20 + data.length) % 2 = 1 then [(20 + data.length, [0])] else []

theorem fill_behind (data : List UInt8) : ∀ w ∈ fill data, 20 + data.length ≤ w.1 := by
  unfold fill
  split_ifs
  · exact List.forall_mem_singleton.mpr le_rfl
  · exact List.forall_mem_nil _

theorem holds_fill {ws : List (ℕ × List UInt8)} {b₀ b : List UInt8}
    (hstore : storeAll b₀ (ws ++ fill data) = some b) :
    Holds b (20 + data.length) (padding data) := by
  unfold padding
  rcases Nat.mod_two_eq_zero_or_one (20 + data.length) with heven | hodd
  · rw [heven]
    exact fun i hi => absurd hi (Nat.not_lt_zero i)
  · rw [fill, if_pos hodd] at hstore
    rw [hodd]
    exact holds_storeAll hstore (List.forall_mem_nil _)

/-- Up to the copy, the stores do not overlap. -/
theorem holds_header {v : ℕ} {dgram buf b₀ : List UInt8}
    (hstore : storeAll buf [(0, src.bytes), (4, dst.bytes), (8, [0]), (9, [IPPROTO_UDP]),
      (10, be16 v), (12, dgram)] = some b₀) :
    Holds b₀ 0 (pseudoheader src dst v) ∧ Holds b₀ 12 dgram := by
  have hholds {w : ℕ × List UInt8} (hw : w ∈ [(0, src.bytes), (4, dst.bytes), (8, [0]),
      (9, [IPPROTO_UDP]), (10, be16 v), (12, dgram)]) : Holds b₀ w.1 w.2 := by
    refine holds_of_pairwise hstore ?_ hw
    simp [InAddr.bytes, be16]
  have hsrc := @hholds (0, src.bytes) (by simp)
  have hdst := @hholds (4, dst.bytes) (by simp)
  have hzero := @hholds (8, [0]) (by simp)
  have hproto := @hholds (9, [IPPROTO_UDP]) (by simp)
  have hlength := @hholds (10, be16 v) (by simp)
  exact ⟨hsrc.append (hdst.append ((hzero.append hproto).append hlength)),
    @hholds (12, dgram) (by simp)⟩

/-- If the copy has the whole datagram, the bytes to checksum are the pseudoheader and the datagram
with a zero checksum. -/
theorem holds_pseudoDatagram {dgram buf b : List UInt8}
    (hports : Holds dgram 0 (ports srcPort dstPort (8 + data.length)))
    (hpayload : Holds dgram 8 data) (hlen : 8 + data.length ≤ dgram.length)
    (hstore : storeAll buf (pseudoDatagram src.bytes dst.bytes [IPPROTO_UDP]
      (be16 (8 + data.length)) dgram (20 + data.length)) = some b) :
    Holds b 0 (pseudoheader src dst (8 + data.length) ++
      (ports srcPort dstPort (8 + data.length) ++ (leBytes 2 0 ++ (data ++ padding data)))) := by
  have hsplit : pseudoDatagram src.bytes dst.bytes [IPPROTO_UDP] (be16 (8 + data.length)) dgram
      (20 + data.length) = [(0, src.bytes), (4, dst.bytes), (8, [0]), (9, [IPPROTO_UDP]),
        (10, be16 (8 + data.length)), (12, dgram)] ++ ([(18, leBytes 2 0)] ++ fill data) := rfl
  rw [hsplit, storeAll_append, Option.bind_eq_some_iff] at hstore
  obtain ⟨b₀, hcopy, hrest⟩ := hstore
  obtain ⟨hpseudo, hdgram⟩ := holds_header hcopy
  -- the checksum and the fill are all that is stored over the copy
  have hkeep {off : ℕ} {bs : List UInt8} (hheld : Holds b₀ off bs)
      (hcheck : off + bs.length ≤ 18 ∨ 20 ≤ off) (hend : off + bs.length ≤ 20 + data.length) :
      Holds b off bs := by
    apply hheld.storeAll hrest
    rw [List.forall_mem_append, List.forall_mem_singleton]
    refine ⟨hcheck, ?_⟩
    intro w hw
    exact .inl (hend.trans (fill_behind data w hw))
  have hpseudo' : Holds b 0 (pseudoheader src dst (8 + data.length)) :=
    hkeep hpseudo (.inl (show 0 + 12 ≤ 18 by omega)) (show 0 + 12 ≤ 20 + data.length by omega)
  have hports' : Holds b 12 (ports srcPort dstPort (8 + data.length)) :=
    hkeep (hdgram.copy hports (show 0 + 6 ≤ dgram.length by omega)) (.inl le_rfl)
      (show 12 + 6 ≤ 20 + data.length by omega)
  have hcheck : Holds b 18 (leBytes 2 0) := by
    refine @holds_storeAll _ b₀ b [] (fill data) (18, leBytes 2 0) hrest ?_
    intro w hw
    have hfar := fill_behind data w hw
    exact .inl (show 18 + 2 ≤ w.1 by omega)
  have hpayload' : Holds b 20 data := hkeep (hdgram.copy hpayload hlen) (.inr le_rfl) le_rfl
  exact hpseudo'.append (hports'.append (hcheck.append (hpayload'.append (holds_fill hrest))))

theorem udpChecksum_full (h : Built src dst srcPort dstPort data m) (hdata : data.length ≤ 65507)
    (hn : 8 + data.length ≤ htons (8 + data.length)) (hroom : htons (8 + data.length) ≤ 65515)
    {buf : List UInt8} (hbuf : buf.length = IP_MAXPACKET) :
    ∃ bytes, bytes.length ≤ 65536 ∧ leSum bytes = wordSum src dst srcPort dstPort data ∧
      udpChecksum m buf = some (checksum bytes) := by
  have hlen : m.length = 65535 := h.length
  obtain ⟨dgram, hload, hdgram, -⟩ : ∃ dgram, load m 20 (htons (8 + data.length)) = some dgram ∧
      dgram.length = htons (8 + data.length) ∧ Holds m 20 dgram := load_spec (by omega)
  have hports : Holds dgram 0 (ports srcPort dstPort (8 + data.length)) :=
    h.ports.load hload (show 0 + 6 ≤ htons (8 + data.length) by omega)
  have hpayload : Holds dgram 8 data := h.payload.load hload hn
  obtain ⟨b, bytes, hstore, hbytes, hblen, hbyteslen, -⟩ :=
    @storeAll_pseudoDatagram src dst data hdata buf dgram hbuf (by omega)
  have hheld := holds_pseudoDatagram hports hpayload (by omega) hstore
  have hsize : (pseudoheader src dst (8 + data.length) ++
      (ports srcPort dstPort (8 + data.length) ++ (leBytes 2 0 ++ (data ++ padding data)))).length =
      checksumBytes data := by
    have hpseudo : (pseudoheader src dst (8 + data.length)).length = 12 := rfl
    have hports : (ports srcPort dstPort (8 + data.length)).length = 6 := rfl
    simp only [List.length_append, hpseudo, hports, length_leBytes, padding, List.length_replicate,
      checksumBytes]
    omega
  have hloaded := load_eq hheld (by
    rw [hsize, hblen, checksumBytes, IP_MAXPACKET]
    omega)
  rw [hsize] at hloaded
  have heq := Option.some.inj (hloaded.symm.trans hbytes)
  refine ⟨bytes, ?_, ?_, ?_⟩
  · rw [hbyteslen, checksumBytes]
    omega
  · rw [← heq, leSum_datagram (by decide), leSum_padding, Nat.zero_add, wordSum]
  · rw [udpChecksum_eq h hdata, hload, Option.bind_some, hstore, Option.bind_some, hbytes,
      Option.map_some]

theorem add_checksum_iff {bytes : List UInt8} (h : bytes.length ≤ 65536) (w : ℕ) :
    (w + checksum bytes ≡ 0 [MOD 65535] ∧ w + checksum bytes ≠ 0) ↔
      w ≡ leSum bytes [MOD 65535] ∧ (w = 0 → leSum bytes = 0) := by
  obtain ⟨f, hf, hmod, hzero⟩ := checksum_spec h
  unfold Nat.ModEq at *
  omega

/-- The datagram is valid if and only if the right bytes were summed up. -/
theorem build_valid_iff (h : Built src dst srcPort dstPort data m) (hdata : data.length ≤ 65507)
    {bytes buf : List UInt8} (hlen : bytes.length ≤ 65536)
    (hcheck : udpChecksum m buf = some (checksum bytes)) :
    (∃ m', ((udpChecksum m buf).bind fun check => store m 26 (leBytes 2 check)) = some m' ∧
      Valid src dst data m') ↔
    wordSum src dst srcPort dstPort data ≡ leSum bytes [MOD 65535] ∧
      (wordSum src dst srcPort dstPort data = 0 → leSum bytes = 0) := by
  have hsize : m.length = 65535 := h.length
  have hlt : checksum bytes < 65536 := Nat.mod_lt _ (by decide)
  obtain ⟨m', hstore, -⟩ : ∃ m', store m 26 (leBytes 2 (checksum bytes)) = some m' ∧
      Frame m m' 26 2 ∧ Holds m' 26 (leBytes 2 (checksum bytes)) :=
    store_spec (show 26 + 2 ≤ m.length by omega)
  rw [hcheck, Option.bind_some, hstore, ← add_checksum_iff hlen, ← valid_iff h hdata hlt hstore]
  constructor
  · rintro ⟨_, ⟨⟩, hvalid⟩
    exact hvalid
  · intro hvalid
    exact ⟨m', rfl, hvalid⟩

end Datagram

section Build

variable {src dst : InAddr} {srcPort dstPort : List Char} {data : List UInt8}
  (hdata : data.length ≤ 65507)
include hdata

/-- A byte that was in the buffer before decides about the checksum. -/
theorem build_short_copy (hn : htons (8 + data.length) < 8 + data.length) :
    ∃ m buf, m.length = IP_MAXPACKET ∧ buf.length = IP_MAXPACKET ∧
      ¬∃ m', build src dst srcPort dstPort data m buf = some m' ∧ Valid src dst data m' := by
  have hm : (List.replicate IP_MAXPACKET (0 : UInt8)).length = IP_MAXPACKET :=
    List.length_replicate
  have hzero : (List.replicate IP_MAXPACKET (0 : UInt8))[19 + data.length]? = some 0 :=
    List.getElem?_replicate_of_lt (show 19 + data.length < 65535 by omega)
  obtain ⟨m₁, hbuilt, hbuild⟩ :=
    @build_eq src dst srcPort dstPort data (List.replicate IP_MAXPACKET 0) hdata hm
  obtain ⟨bytes, hlen, hbyte, hsame, hother⟩ := udpChecksum_stale hbuilt hdata hn hm hzero
  by_contra hall
  push Not at hall
  obtain ⟨m', hm', hvalid⟩ := hall _ _ hm hm
  obtain ⟨m'', hm'', hvalid'⟩ := hall (List.replicate IP_MAXPACKET 0)
    ((List.replicate IP_MAXPACKET 0).set (19 + data.length) 1) hm (by rw [List.length_set, hm])
  rw [hbuild] at hm' hm''
  obtain ⟨hmod, -⟩ := (build_valid_iff hbuilt hdata hlen hsame).mp ⟨m', hm', hvalid⟩
  have hlen' : (bytes.set (19 + data.length) 1).length ≤ 65536 := by rwa [List.length_set]
  obtain ⟨hmod', -⟩ := (build_valid_iff hbuilt hdata hlen' hother).mp ⟨m'', hm'', hvalid'⟩
  have hcontra := hmod.symm.trans hmod'
  rw [leSum_set hbyte] at hcontra
  have hone : (1 : UInt8).toNat = 1 := rfl
  rw [hone, Nat.one_mul] at hcontra
  unfold Nat.ModEq at hcontra
  split_ifs at hcontra <;> omega

theorem raw_send_udp_valid_iff :
    (∀ m buf, m.length = IP_MAXPACKET → buf.length = IP_MAXPACKET →
      ∃ m', build src dst srcPort dstPort data m buf = some m' ∧ Valid src dst data m') ↔
    UDP_HEADER_LEN + data.length ≤ htons (UDP_HEADER_LEN + data.length) ∧
      htons (UDP_HEADER_LEN + data.length) ≤ IP_MAXPACKET - IPv4_HEADER_LEN := by
  have hL : UDP_HEADER_LEN + data.length = 8 + data.length := rfl
  have hmax : IP_MAXPACKET - IPv4_HEADER_LEN = 65515 := rfl
  rw [hL, hmax]
  constructor
  · intro hall
    refine ⟨?_, ?_⟩
    · by_contra hn
      obtain ⟨m, buf, hm, hbuf, hnot⟩ :=
        @build_short_copy src dst srcPort dstPort data hdata (by omega)
      exact hnot (hall m buf hm hbuf)
    · by_contra hn
      have hm : (List.replicate IP_MAXPACKET (0 : UInt8)).length = IP_MAXPACKET :=
        List.length_replicate
      obtain ⟨m', hm', -⟩ := hall _ _ hm hm
      obtain ⟨m₁, hbuilt, hbuild⟩ :=
        @build_eq src dst srcPort dstPort data (List.replicate IP_MAXPACKET 0) hdata hm
      rw [hbuild, udpChecksum_out_of_bounds hbuilt hdata (by omega), Option.bind_none] at hm'
      exact Option.some_ne_none m' hm'.symm
  · rintro ⟨hn, hroom⟩ m buf hm hbuf
    obtain ⟨m₁, hbuilt, hbuild⟩ := @build_eq src dst srcPort dstPort data m hdata hm
    obtain ⟨bytes, hlen, hsum, hcheck⟩ := udpChecksum_full hbuilt hdata hn hroom hbuf
    rw [hbuild]
    apply (build_valid_iff hbuilt hdata hlen hcheck).mpr
    rw [hsum]
    exact ⟨rfl, id⟩

end Build

theorem raw_send_udp_valid_iff_hello : [104, 101, 108, 108, 111].length ≤ 65507 ∧
    ∀ m buf : List UInt8, m.length = IP_MAXPACKET → buf.length = IP_MAXPACKET →
      ∃ m', build ⟨127, 0, 0, 1⟩ ⟨127, 0, 0, 1⟩ "1234".toList "5678".toList
        [104, 101, 108, 108, 111] m buf = some m' ∧
        Valid ⟨127, 0, 0, 1⟩ ⟨127, 0, 0, 1⟩ [104, 101, 108, 108, 111] m' :=
  ⟨by decide, (raw_send_udp_valid_iff (by decide)).mpr (by decide)⟩

/-- With 248 bytes of payload, the length 256 is 1 in network byte order, and only the first byte of
the datagram is copied. -/
theorem raw_send_udp_fails_248 :
    ∃ m buf : List UInt8, m.length = IP_MAXPACKET ∧ buf.length = IP_MAXPACKET ∧
      ¬∃ m', build ⟨127, 0, 0, 1⟩ ⟨127, 0, 0, 1⟩ "1234".toList "5678".toList
          (List.replicate 248 97) m buf = some m' ∧
        Valid ⟨127, 0, 0, 1⟩ ⟨127, 0, 0, 1⟩ (List.replicate 248 97) m' := by
  apply build_short_copy
  · rw [List.length_replicate]
    decide
  · rw [List.length_replicate]
    decide

end Tlpi.Sockets.RawSendUdp
