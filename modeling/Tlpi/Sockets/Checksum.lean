import Tlpi.Sockets.RawSendUdp

/-! `checksum()` of `sockets/raw_send_udp.c` computes the ones' complement checksum of its words,
and a buffer into which its checksum is stored has the checksum 0. -/

namespace Tlpi.Sockets.RawSendUdp
open Lib Lib.Memory

/-- Behind an even number of bytes the loop goes on with the words left. -/
theorem sumWords_append {as : List UInt8} (h : as.length % 2 = 0) (bs : List UInt8) (sum : ℕ) :
    sumWords (as ++ bs) sum = sumWords bs (sumWords as sum) := by
  induction as, sum using sumWords.induct with
  | case1 a b as sum ih =>
    have hlen : as.length % 2 = 0 := by
      simp only [List.length_cons] at h
      omega
    rw [List.cons_append, List.cons_append, sumWords, sumWords, ih hlen]
  | case2 a sum => simp at h
  | case3 sum => rfl

theorem sumWords_mod (bytes : List UInt8) : sumWords bytes 0 = leSum bytes % 2 ^ 32 := by
  have hmod := sumWords_eq bytes 0
  have hlt := sumWords_lt bytes (show 0 < 2 ^ 32 by decide)
  rwa [Nat.mod_eq_of_lt hlt, Nat.zero_add] at hmod

theorem checksum_add_foldSum (bytes : List UInt8) :
    checksum bytes + foldSum (sumWords bytes 0) = 65535 := by
  obtain ⟨hle, -⟩ := foldSum_spec (sumWords bytes 0)
  unfold checksum
  omega

/-- Two passes fold a sum of 32 bits. -/
theorem foldSum_two_passes {sum : ℕ} (h : sum < 2 ^ 32) :
    ∃ k ≤ 2, foldSum sum = (fun s => s % 65536 + s / 65536)^[k] sum := by
  by_cases h0 : sum / 65536 = 0
  · exact ⟨0, by decide, by rw [foldSum, if_pos h0]; rfl⟩
  · by_cases h1 : (sum % 65536 + sum / 65536) / 65536 = 0
    · exact ⟨1, by decide, by rw [foldSum, if_neg h0, foldSum, if_pos h1]; rfl⟩
    · refine ⟨2, le_rfl, ?_⟩
      have h2 : ((sum % 65536 + sum / 65536) % 65536 + (sum % 65536 + sum / 65536) / 65536) /
          65536 = 0 := by omega
      rw [foldSum, if_neg h0, foldSum, if_neg h1, foldSum, if_pos h2]
      rfl

/-- Up to this length the sum fits into 32 bits. -/
theorem leSum_lt {bytes : List UInt8} (h : bytes.length ≤ 131074) : leSum bytes < 2 ^ 32 := by
  have hle := leSum_le bytes
  omega

theorem foldSum_leSum (bytes : List UInt8) : foldSum (leSum bytes) = onesSum (leWords bytes) := by
  obtain ⟨hle, hmod, hzero⟩ := foldSum_spec (leSum bytes)
  have hsum := sum_leWords bytes
  exact eq_onesSum leWords_le hle (hsum ▸ hmod) (hsum ▸ hzero)

/-! ## Verification -/

/-- A sum of 32 bits and its checksum add up to a multiple of 65535 without a carry. -/
theorem foldSum_add {s c : ℕ} (hs : s < 2 ^ 32) (hc : c + foldSum s = 65535) :
    s + c < 2 ^ 32 ∧ foldSum (s + c) = 65535 := by
  obtain ⟨-, hmod, hzero⟩ := foldSum_spec s
  obtain ⟨hle', hmod', hzero'⟩ := foldSum_spec (s + c)
  have hsum : s + c ≡ 0 [MOD 65535] := by
    calc s + c ≡ foldSum s + c [MOD 65535] := hmod.symm.add_right c
      _ = 65535 := by omega
      _ ≡ 0 [MOD 65535] := Nat.mod_self _
  obtain ⟨q, hq⟩ := Nat.modEq_zero_iff_dvd.mp hsum
  obtain ⟨q', hq'⟩ := Nat.modEq_zero_iff_dvd.mp (hmod'.trans hsum)
  refine ⟨?_, by omega⟩
  -- the largest sum is itself a multiple, whose checksum is 0
  by_contra hlt
  have hmax : s = 65535 * 65537 := by omega
  have hdvd : 65535 ∣ foldSum s := Nat.modEq_zero_iff_dvd.mp (hmod.trans (by rw [hmax]; rfl))
  omega

theorem checksum_stored {bytes bytes' : List UInt8}
    (h : leSum bytes' = leSum bytes + checksum bytes) : checksum bytes' = 0 := by
  have hadd := checksum_add_foldSum bytes
  have hadd' := checksum_add_foldSum bytes'
  rw [sumWords_mod] at hadd hadd'
  obtain ⟨hlt, hfold⟩ := foldSum_add (Nat.mod_lt (leSum bytes) (by decide)) hadd
  have hsum : leSum bytes' % 2 ^ 32 = leSum bytes % 2 ^ 32 + checksum bytes := by omega
  rw [hsum, hfold] at hadd'
  omega

/-- A word that was zero is stored to. -/
theorem leSum_store {bytes bytes' : List UInt8} {off v : ℕ} (heven : off % 2 = 0)
    (hzero : load bytes off 2 = some [0, 0]) (hv : v < 65536)
    (hstore : store bytes off (leBytes 2 v) = some bytes') :
    leSum bytes' = leSum bytes + v := by
  obtain ⟨hle, hload⟩ := Option.ite_none_right_eq_some.mp hzero
  obtain ⟨-, hbytes'⟩ := Option.ite_none_right_eq_some.mp hstore
  have hword : (bytes.drop off).take 2 = [0, 0] := Option.some.inj hload
  have hstored : bytes.take off ++ leBytes 2 v ++ bytes.drop (off + 2) = bytes' :=
    Option.some.inj hbytes'
  have hlen : (bytes.take off).length % 2 = 0 := by
    rw [List.length_take]
    omega
  have hsplit : bytes = bytes.take off ++ ([0, 0] ++ bytes.drop (off + 2)) := by
    rw [← hword, ← List.drop_drop, List.take_append_drop, List.take_append_drop]
  have hsum : leSum bytes = leSum (bytes.take off) + leSum (bytes.drop (off + 2)) := by
    conv_lhs => rw [hsplit, leSum_append hlen, leSum_append (by rfl)]
    exact congrArg _ (Nat.zero_add _)
  rw [← hstored, hsum, List.append_assoc, leSum_append hlen,
    leSum_append (by rw [length_leBytes]), leSum_leBytes hv]
  ring

/-! ## Byte order -/

theorem htons_complement {f : ℕ} (h : f ≤ 65535) : htons (65535 - f) + htons f = 65535 := by
  unfold htons
  omega

theorem htons_modEq {f : ℕ} (h : f ≤ 65535) : htons f ≡ 256 * f [MOD 65535] := by
  have hsplit : 256 * f = htons f + 65535 * (f / 256) := by
    unfold htons
    omega
  unfold Nat.ModEq
  rw [hsplit, Nat.add_mul_mod_self_left]

theorem htons_eq_zero {f : ℕ} (h : f ≤ 65535) : htons f = 0 ↔ f = 0 := by
  unfold htons
  omega

theorem beSum_eq_zero (bytes : List UInt8) : beSum bytes = 0 ↔ leSum bytes = 0 := by
  unfold beSum leSum
  omega

/-- The ones' complement sum is the same in both byte orders. -/
theorem foldSum_beSum (bytes : List UInt8) :
    foldSum (beSum bytes) = htons (foldSum (leSum bytes)) := by
  obtain ⟨hle, hmod, hzero⟩ := foldSum_spec (leSum bytes)
  obtain ⟨hle', hmod', hzero'⟩ := foldSum_spec (beSum bytes)
  have hlt := htons_lt (foldSum (leSum bytes))
  have hsum : foldSum (beSum bytes) ≡ htons (foldSum (leSum bytes)) [MOD 65535] := by
    calc foldSum (beSum bytes) ≡ beSum bytes [MOD 65535] := hmod'
      _ ≡ 256 * leSum bytes [MOD 65535] := beSum_modEq bytes
      _ ≡ 256 * foldSum (leSum bytes) [MOD 65535] := (hmod.mul_left 256).symm
      _ ≡ htons (foldSum (leSum bytes)) [MOD 65535] := (htons_modEq hle).symm
  have hsum0 : foldSum (beSum bytes) = 0 ↔ htons (foldSum (leSum bytes)) = 0 := by
    rw [hzero', htons_eq_zero hle, hzero, beSum_eq_zero]
  unfold Nat.ModEq at hsum
  omega

theorem checksum_swapWords {bytes : List UInt8} (heven : bytes.length % 2 = 0)
    (h : bytes.length ≤ 131074) : checksum (swapWords bytes) = htons (checksum bytes) := by
  have hswap : leSum (swapWords bytes) < 2 ^ 32 := leSum_lt (by rwa [length_swapWords])
  have hadd := checksum_add_foldSum bytes
  have hadd' := checksum_add_foldSum (swapWords bytes)
  rw [sumWords_mod, Nat.mod_eq_of_lt (leSum_lt h)] at hadd
  rw [sumWords_mod, Nat.mod_eq_of_lt hswap, leSum_swapWords heven, foldSum_beSum] at hadd'
  obtain ⟨hle, -⟩ := foldSum_spec (leSum bytes)
  have hcompl := htons_complement hle
  have hsub : 65535 - foldSum (leSum bytes) = checksum bytes := by omega
  rw [hsub] at hcompl
  omega

/-- `checksum()` is the Internet checksum of RFC 1071. A buffer of any length verifies with the
checksum stored; the accumulator of up to 131074 bytes does not wrap, and the byte order does not
matter. -/
theorem checksum_rfc1071 (bytes : List UInt8) :
    (bytes.length ≤ 65536 →
      (∀ as bs, bytes = as ++ bs → as.length % 2 = 0 →
        leSum as < 2 ^ 32 ∧ sumWords bytes 0 = sumWords bs (leSum as)) ∧
      leSum bytes < 2 ^ 32 ∧ sumWords bytes 0 = leSum bytes ∧
      (∃ k ≤ 2, foldSum (leSum bytes) = (fun s => s % 65536 + s / 65536)^[k] (leSum bytes)) ∧
      checksum bytes + onesSum (leWords bytes) = 65535) ∧
    (∀ off, off % 2 = 0 → load bytes off 2 = some [0, 0] →
      ∃ bytes', store bytes off (leBytes 2 (checksum bytes)) = some bytes' ∧
        checksum bytes' = 0) ∧
    (bytes.length % 2 = 0 → bytes.length ≤ 131074 →
      checksum (swapWords bytes) = htons (checksum bytes)) := by
  have hsumWords : ∀ {as : List UInt8}, as.length ≤ 131074 → sumWords as 0 = leSum as := by
    intro as has
    rw [sumWords_mod, Nat.mod_eq_of_lt (leSum_lt has)]
  refine ⟨?_, ?_, ?_⟩
  · intro h
    have hbytes : bytes.length ≤ 131074 := by omega
    refine ⟨?_, leSum_lt hbytes, hsumWords hbytes, foldSum_two_passes (leSum_lt hbytes), ?_⟩
    · rintro as bs rfl heven
      have has : as.length ≤ 131074 := by
        rw [List.length_append] at hbytes
        omega
      rw [sumWords_append heven, hsumWords has]
      exact ⟨leSum_lt has, rfl⟩
    · rw [← foldSum_leSum, ← hsumWords hbytes]
      exact checksum_add_foldSum bytes
  · intro off heven hzero
    obtain ⟨hle, -⟩ := Option.ite_none_right_eq_some.mp hzero
    have hlt : checksum bytes < 65536 := Nat.mod_lt _ (by decide)
    have hroom : off + (leBytes 2 (checksum bytes)).length ≤ bytes.length := by
      rwa [length_leBytes]
    obtain ⟨bytes', hstore, -⟩ := store_spec hroom
    exact ⟨bytes', hstore, checksum_stored (leSum_store heven hzero hlt hstore)⟩
  · intro heven hbytes
    exact checksum_swapWords heven hbytes

theorem checksum_rfc1071_odd :
    [0xff, 0xff, 0, 0, 0x12].length ≤ 65536 ∧ load [0xff, 0xff, 0, 0, 0x12] 2 2 = some [0, 0] ∧
    checksum [0xff, 0xff, 0, 0, 0x12] + onesSum (leWords [0xff, 0xff, 0, 0, 0x12]) = 65535 ∧
    ∃ bytes', store [0xff, 0xff, 0, 0, 0x12] 2 (leBytes 2 (checksum [0xff, 0xff, 0, 0, 0x12])) =
      some bytes' ∧ checksum bytes' = 0 := by
  obtain ⟨hsum, hverify, -⟩ := checksum_rfc1071 [0xff, 0xff, 0, 0, 0x12]
  obtain ⟨-, -, -, -, hcompl⟩ := hsum (by decide)
  exact ⟨by decide, by decide, hcompl, hverify 2 rfl (by decide)⟩

end Tlpi.Sockets.RawSendUdp
