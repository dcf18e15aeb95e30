import Mathlib.Tactic

/-! Ones' complement sums of 16-bit words, and of the words of a string of bytes in either byte
order. A sum is the remainder modulo 65535, where a sum that is not zero is never represented by
zero. -/

namespace Tlpi.Lib

/-- The addition with end-around carry. -/
def onesAdd (a b : ℕ) : ℕ := (a + b) % 65536 + (a + b) / 65536

def onesSum (ws : List ℕ) : ℕ := ws.foldl onesAdd 0

/-- A carry from 16 bits is added at the other end. -/
theorem carry_modEq (s : ℕ) : s % 65536 + s / 65536 ≡ s [MOD 65535] := by
  unfold Nat.ModEq
  omega

/-- Induction on the words. -/
theorem foldl_onesAdd {ws : List ℕ} (hws : ∀ w ∈ ws, w ≤ 65535) {acc : ℕ} (hacc : acc ≤ 65535) :
    ws.foldl onesAdd acc ≤ 65535 ∧ ws.foldl onesAdd acc ≡ acc + ws.sum [MOD 65535] ∧
      (ws.foldl onesAdd acc = 0 ↔ acc + ws.sum = 0) := by
  induction ws generalizing acc with
  | nil => exact ⟨hacc, rfl, Iff.rfl⟩
  | cons w ws ih =>
    obtain ⟨hw, hws⟩ := List.forall_mem_cons.mp hws
    have hle : onesAdd acc w ≤ 65535 := by
      unfold onesAdd
      omega
    have hzero : onesAdd acc w = 0 ↔ acc + w = 0 := by
      unfold onesAdd
      omega
    obtain ⟨h1, h2, h3⟩ := ih hws hle
    rw [List.foldl_cons, List.sum_cons]
    refine ⟨h1, ?_, ?_⟩
    · calc ws.foldl onesAdd (onesAdd acc w)
          ≡ onesAdd acc w + ws.sum [MOD 65535] := h2
        _ ≡ acc + w + ws.sum [MOD 65535] := (carry_modEq (acc + w)).add_right _
        _ = acc + (w + ws.sum) := Nat.add_assoc ..
    · rw [h3]
      omega

/-- The two representations of zero apart, a sum is known by its remainder. -/
theorem eq_onesSum {ws : List ℕ} (hws : ∀ w ∈ ws, w ≤ 65535) {f : ℕ} (hf : f ≤ 65535)
    (hmod : f ≡ ws.sum [MOD 65535]) (hzero : f = 0 ↔ ws.sum = 0) : f = onesSum ws := by
  obtain ⟨hle, hmod', hzero'⟩ := foldl_onesAdd hws (Nat.zero_le _)
  rw [Nat.zero_add] at hmod' hzero'
  have hfs : f ≡ onesSum ws [MOD 65535] := hmod.trans hmod'.symm
  have hfs0 : f = 0 ↔ onesSum ws = 0 := hzero.trans hzero'.symm
  have hle' : onesSum ws ≤ 65535 := hle
  unfold Nat.ModEq at hfs
  omega

theorem onesSum_eq_max_iff {ws : List ℕ} (hws : ∀ w ∈ ws, w ≤ 65535) :
    onesSum ws = 65535 ↔ ws.sum ≡ 0 [MOD 65535] ∧ ws.sum ≠ 0 := by
  obtain ⟨hle, hmod, hzero⟩ := foldl_onesAdd hws (Nat.zero_le _)
  rw [Nat.zero_add] at hmod hzero
  unfold onesSum
  constructor
  · intro h
    rw [h] at hmod hzero
    refine ⟨hmod.symm.trans (Nat.mod_self _), ?_⟩
    intro h0
    exact absurd (hzero.mpr h0) (by decide)
  · rintro ⟨hsum, hne⟩
    have hdvd : 65535 ∣ ws.foldl onesAdd 0 := Nat.modEq_zero_iff_dvd.mp (hmod.trans hsum)
    have hpos : 0 < ws.foldl onesAdd 0 := Nat.pos_of_ne_zero fun h => hne (hzero.mp h)
    exact le_antisymm hle (Nat.le_of_dvd hpos hdvd)

/-! ## The words of a string of bytes -/

/-- The sums of the bytes at even and at odd positions. -/
def byteSums : List UInt8 → ℕ × ℕ
  | [] => (0, 0)
  | b :: bs => (b.toNat + (byteSums bs).2, (byteSums bs).1)

/-- The sum of the little-endian words; a byte that is left over is padded with a zero byte. -/
def leSum (bs : List UInt8) : ℕ := (byteSums bs).1 + 256 * (byteSums bs).2

def beSum (bs : List UInt8) : ℕ := 256 * (byteSums bs).1 + (byteSums bs).2

def beWords : List UInt8 → List ℕ
  | a :: b :: bs => (256 * a.toNat + b.toNat) :: beWords bs
  | [a] => [256 * a.toNat]
  | [] => []

def leWords : List UInt8 → List ℕ
  | a :: b :: bs => (a.toNat + 256 * b.toNat) :: leWords bs
  | [a] => [a.toNat]
  | [] => []

/-- The two bytes of every word change places. -/
def swapWords : List UInt8 → List UInt8
  | a :: b :: bs => b :: a :: swapWords bs
  | bs => bs

theorem leSum_cons_cons (a b : UInt8) (bs : List UInt8) :
    leSum (a :: b :: bs) = a.toNat + 256 * b.toNat + leSum bs := by
  simp only [leSum, byteSums]
  ring

theorem sum_beWords (bs : List UInt8) : (beWords bs).sum = beSum bs := by
  induction bs using beWords.induct with
  | case1 a b bs ih =>
    rw [beWords, List.sum_cons, ih]
    simp only [beSum, byteSums]
    ring
  | case2 a => simp [beWords, beSum, byteSums]
  | case3 => rfl

theorem sum_leWords (bs : List UInt8) : (leWords bs).sum = leSum bs := by
  induction bs using leWords.induct with
  | case1 a b bs ih => rw [leWords, List.sum_cons, ih, leSum_cons_cons]
  | case2 a => simp [leWords, leSum, byteSums]
  | case3 => rfl

theorem leWords_le {bs : List UInt8} : ∀ w ∈ leWords bs, w ≤ 65535 := by
  induction bs using leWords.induct with
  | case1 a b bs ih =>
    have ha := a.toNat_lt
    have hb := b.toNat_lt
    exact List.forall_mem_cons.mpr ⟨by omega, ih⟩
  | case2 a =>
    have ha := a.toNat_lt
    exact List.forall_mem_singleton.mpr (by omega)
  | case3 => exact List.forall_mem_nil _

theorem leSum_swapWords {bs : List UInt8} (h : bs.length % 2 = 0) :
    leSum (swapWords bs) = beSum bs := by
  induction bs using leWords.induct with
  | case1 a b bs ih =>
    have hlen : bs.length % 2 = 0 := by
      simp only [List.length_cons] at h
      omega
    rw [swapWords, leSum_cons_cons, ih hlen]
    simp only [beSum, byteSums]
    ring
  | case2 a => simp at h
  | case3 => rfl

theorem length_swapWords (bs : List UInt8) : (swapWords bs).length = bs.length := by
  induction bs using leWords.induct with
  | case1 a b bs ih => rw [swapWords, List.length_cons, List.length_cons, ih]; rfl
  | case2 a => rfl
  | case3 => rfl

theorem beWords_le {bs : List UInt8} : ∀ w ∈ beWords bs, w ≤ 65535 := by
  induction bs using beWords.induct with
  | case1 a b bs ih =>
    have ha := a.toNat_lt
    have hb := b.toNat_lt
    exact List.forall_mem_cons.mpr ⟨by omega, ih⟩
  | case2 a =>
    have ha := a.toNat_lt
    exact List.forall_mem_singleton.mpr (by omega)
  | case3 => exact List.forall_mem_nil _

/-- The sums in the two byte orders differ by a factor that is its own inverse. -/
theorem beSum_modEq (bs : List UInt8) : beSum bs ≡ 256 * leSum bs [MOD 65535] := by
  unfold beSum leSum Nat.ModEq
  omega

theorem leSum_modEq (bs : List UInt8) : leSum bs ≡ 256 * beSum bs [MOD 65535] := by
  unfold beSum leSum Nat.ModEq
  omega

theorem onesSum_beWords_iff (bs : List UInt8) :
    onesSum (beWords bs) = 65535 ↔ leSum bs ≡ 0 [MOD 65535] ∧ leSum bs ≠ 0 := by
  rw [onesSum_eq_max_iff beWords_le, sum_beWords]
  have hne : beSum bs ≠ 0 ↔ leSum bs ≠ 0 := by
    unfold beSum leSum
    omega
  rw [hne]
  refine and_congr_left fun _ => ⟨fun h => ?_, fun h => ?_⟩
  · exact (leSum_modEq bs).trans (h.mul_left 256)
  · exact (beSum_modEq bs).trans (h.mul_left 256)

theorem byteSums_append_zero (bs : List UInt8) : byteSums (bs ++ [0]) = byteSums bs := by
  induction bs with
  | nil => rfl
  | cons b bs ih => rw [List.cons_append, byteSums, byteSums, ih]

theorem leSum_append_zero (bs : List UInt8) : leSum (bs ++ [0]) = leSum bs := by
  rw [leSum, byteSums_append_zero, leSum]

/-- Behind an even number of bytes the words begin anew. -/
theorem leSum_append {as : List UInt8} (h : as.length % 2 = 0) (bs : List UInt8) :
    leSum (as ++ bs) = leSum as + leSum bs := by
  induction as using beWords.induct with
  | case1 a b as ih =>
    have hlen : as.length % 2 = 0 := by
      simp only [List.length_cons] at h
      omega
    rw [List.cons_append, List.cons_append, leSum_cons_cons, leSum_cons_cons, ih hlen]
    ring
  | case2 a => simp at h
  | case3 => exact (Nat.zero_add _).symm

/-- How a byte that was zero contributes. -/
theorem byteSums_set {bs : List UInt8} {k : ℕ} (h : bs[k]? = some 0) (v : UInt8) :
    byteSums (bs.set k v) = if k % 2 = 0 then ((byteSums bs).1 + v.toNat, (byteSums bs).2)
      else ((byteSums bs).1, (byteSums bs).2 + v.toNat) := by
  induction bs generalizing k with
  | nil => cases h
  | cons b bs ih =>
    cases k with
    | zero =>
      obtain rfl : b = 0 := Option.some.inj h
      simp [byteSums, Nat.add_comm]
    | succ k =>
      have hrest := ih (k := k) h
      rw [List.set_cons_succ, byteSums, hrest]
      by_cases hk : k % 2 = 0
      · have hk' : ¬ (k + 1) % 2 = 0 := by omega
        rw [if_pos hk, if_neg hk']
        rfl
      · have hk' : (k + 1) % 2 = 0 := by omega
        rw [if_neg hk, if_pos hk', byteSums, Nat.add_assoc]

theorem leSum_set {bs : List UInt8} {k : ℕ} (h : bs[k]? = some 0) (v : UInt8) :
    leSum (bs.set k v) = leSum bs + v.toNat * if k % 2 = 0 then 1 else 256 := by
  unfold leSum
  rw [byteSums_set h]
  split_ifs <;> ring

/-- Each word is less than 65536. -/
theorem leSum_le (bs : List UInt8) : leSum bs ≤ 65535 * ((bs.length + 1) / 2) := by
  induction bs using beWords.induct with
  | case1 a b bs ih =>
    have ha := a.toNat_lt
    have hb := b.toNat_lt
    rw [leSum_cons_cons, List.length_cons, List.length_cons]
    omega
  | case2 a =>
    have ha := a.toNat_lt
    simp only [leSum, byteSums, List.length_singleton]
    omega
  | case3 => exact Nat.zero_le _

end Tlpi.Lib
