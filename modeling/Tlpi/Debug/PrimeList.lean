import Tlpi.Debug.PrimeBug
import Mathlib.Data.Nat.Prime.Basic
import Mathlib.Data.Nat.Factorization.Basic
import Mathlib.Tactic

/-! The list that `debug/prime_bug.c` prints. Its test stops before the square root and tries no
even factor, while its `main()` asks it about the even numbers too; what it prints can be told
exactly. -/

namespace Tlpi.Debug.PrimeBug
open Lib

/-- The loop of `test_prime()`. -/
def testPrimeLoop (test root fac : ℤ) : Bool :=
  if fac < root then
    if test.tmod fac = 0 then false else testPrimeLoop test root (fac + 2)
  else true
termination_by (root - fac).toNat
decreasing_by omega

def testPrime (fuel : ℕ) (test : ℤ) : Option (Except CInt.Fault Bool) :=
  match sqroot fuel test with
  | some (.ok root) => some (.ok (testPrimeLoop test root 3))
  | some (.error fault) => some (.error fault)
  | none => none

/-- The loop of `main()`, with what it has printed; `test += 1` overflows at the largest `int`. -/
def mainLoop (fuel : ℕ) (lim test : ℤ) (out : List ℤ) : Option (Except CInt.Fault (List ℤ)) :=
  if test ≤ lim then
    match testPrime fuel test with
    | some (.ok isPrime) =>
      if test = INT_MAX then some (.error .overflow)
      else mainLoop fuel lim (test + 1) (if isPrime then out ++ [test] else out)
    | some (.error fault) => some (.error fault)
    | none => none
  else some (.ok out)
termination_by (lim + 1 - test).toNat
decreasing_by omega

/-- What `main()` prints with the limit `lim`. -/
def printed (fuel : ℕ) (lim : ℤ) : Option (Except CInt.Fault (List ℤ)) := mainLoop fuel lim 3 [2]

/-! ## The test -/

theorem sqroot_eq_sqrt {num : ℕ} (htwo : 2 ≤ num) (hmax : (num : ℤ) ≤ INT_MAX) {fuel : ℕ}
    (hfuel : num / 2 + 2 ≤ fuel) : sqroot fuel num = some (.ok (num.sqrt : ℤ)) := by
  have hhalf : CInt.div num 2 = .ok ((num / 2 : ℕ) : ℤ) := CInt.div_natCast hmax two_ne_zero
  rw [sqroot, hhalf]
  exact sqrootLoop_eq htwo hmax (sqrt_le_half htwo) le_rfl (.inl rfl) (by omega)

/-- The loop says yes if no number of the form `fac + 2 * i` below the root is a divisor. -/
theorem testPrimeLoop_iff (test root fac : ℕ) :
    testPrimeLoop test root fac = true ↔ ∀ i, fac + 2 * i < root → ¬ (fac + 2 * i) ∣ test := by
  induction hk : root - fac using Nat.strong_induction_on generalizing fac with
  | _ k ih =>
    rw [testPrimeLoop]
    rcases Nat.lt_or_ge fac root with hlt | hge
    · rw [if_pos (by exact_mod_cast hlt)]
      have hdvd : (test : ℤ).tmod fac = 0 ↔ fac ∣ test := by
        rw [← Int.dvd_iff_tmod_eq_zero, Int.natCast_dvd_natCast]
      have hnext := ih (root - (fac + 2)) (by omega) (fac + 2) rfl
      push_cast at hnext
      by_cases hd : fac ∣ test
      · rw [if_pos (hdvd.mpr hd)]
        simp only [Bool.false_eq_true, false_iff, not_forall]
        exact ⟨0, hlt, not_not.mpr hd⟩
      · rw [if_neg (mt hdvd.mp hd), hnext]
        refine ⟨fun h i hi => ?_, fun h i hi => ?_⟩
        · cases i with
          | zero => exact hd
          | succ i =>
            have heq : fac + 2 * (i + 1) = fac + 2 + 2 * i := by ring
            rw [heq] at hi ⊢
            exact h i hi
        · have heq : fac + 2 + 2 * i = fac + 2 * (i + 1) := by ring
          rw [heq] at hi ⊢
          exact h (i + 1) hi
    · rw [if_neg (by exact_mod_cast hge.not_gt)]
      exact ⟨fun _ i hi => absurd hi (by omega), fun _ => rfl⟩

/-- No odd prime below the square root divides the number. -/
def NoSmallOddFactor (n : ℕ) : Prop := ∀ p, p.Prime → p ≠ 2 → p ∣ n → n.sqrt ≤ p

theorem testPrimeLoop_three_iff (n : ℕ) :
    testPrimeLoop n n.sqrt 3 = true ↔ NoSmallOddFactor n := by
  have hloop := testPrimeLoop_iff n n.sqrt 3
  push_cast at hloop
  rw [hloop]
  refine ⟨fun h p hp htwo hdvd => ?_, fun h i hi hdvd => ?_⟩
  · by_contra hlt
    obtain ⟨k, hk⟩ := hp.odd_of_ne_two htwo
    have hge := hp.two_le
    obtain ⟨i, rfl⟩ : ∃ i, p = 3 + 2 * i := ⟨k - 1, by omega⟩
    exact h i (not_le.mp hlt) hdvd
  · have hne : 3 + 2 * i ≠ 1 := by omega
    have hle := h (3 + 2 * i).minFac (Nat.minFac_prime hne) ?_ ((Nat.minFac_dvd _).trans hdvd)
    · have hself := Nat.minFac_le (show 0 < 3 + 2 * i by omega)
      omega
    · intro htwo
      have hdvd2 := htwo ▸ Nat.minFac_dvd (3 + 2 * i)
      omega

/-! ## The numbers that pass -/

/-- A power of 2; an odd prime, times a power of 2 that is at most two larger; the square of an odd
prime; the product of two odd primes that are two apart. -/
inductive Passes : ℕ → Prop
  | powTwo (k : ℕ) : Passes (2 ^ k)
  | timesPrime (k p : ℕ) (hp : p.Prime) (hodd : p ≠ 2) (hle : 2 ^ k ≤ p + 2) : Passes (2 ^ k * p)
  | square (p : ℕ) (hp : p.Prime) (hodd : p ≠ 2) : Passes (p * p)
  | twins (p : ℕ) (hp : p.Prime) (hodd : p ≠ 2) (hp' : (p + 2).Prime) : Passes (p * (p + 2))

theorem sqrt_le_of_mul_le {n p c : ℕ} (hn : n ≤ c * p) (hc : c ≤ p + 2) : n.sqrt ≤ p := by
  rw [← Nat.lt_succ_iff, Nat.sqrt_lt']
  calc n ≤ c * p := hn
    _ ≤ (p + 2) * p := Nat.mul_le_mul_right p hc
    _ < (p + 1) ^ 2 := by ring_nf; omega

theorem noSmallOddFactor_of_passes {n : ℕ} (h : Passes n) : NoSmallOddFactor n := by
  intro q hq htwo hdvd
  cases h with
  | powTwo k => exact absurd ((Nat.prime_dvd_prime_iff_eq hq Nat.prime_two).mp
      (hq.dvd_of_dvd_pow hdvd)) htwo
  | timesPrime k p hp _ hle =>
    rcases hq.dvd_mul.mp hdvd with hpow | hself
    · exact absurd ((Nat.prime_dvd_prime_iff_eq hq Nat.prime_two).mp (hq.dvd_of_dvd_pow hpow)) htwo
    · rw [(Nat.prime_dvd_prime_iff_eq hq hp).mp hself]
      exact sqrt_le_of_mul_le le_rfl hle
  | square p hp _ =>
    rw [(Nat.prime_dvd_prime_iff_eq hq hp).mp ((hq.dvd_mul.mp hdvd).elim id id), Nat.sqrt_eq]
  | twins p hp _ hp' =>
    have hle : (p * (p + 2)).sqrt ≤ p := sqrt_le_of_mul_le (Nat.mul_comm _ _).le le_rfl
    rcases hq.dvd_mul.mp hdvd with hself | hself
    · rwa [(Nat.prime_dvd_prime_iff_eq hq hp).mp hself]
    · rw [(Nat.prime_dvd_prime_iff_eq hq hp').mp hself]
      omega

/-- The cofactor of the least prime factor of an odd number has no smaller one. -/
theorem minFac_le_cofactor {p q : ℕ} (hp : (p * q).minFac = p) (hq : q ≠ 1) : p ≤ q.minFac := by
  rw [← hp]
  exact Nat.minFac_le_of_dvd (Nat.minFac_prime hq).two_le
    ((Nat.minFac_dvd q).trans (Dvd.intro_left p rfl))

theorem passes_of_noSmallOddFactor {n : ℕ} (hn : n ≠ 0) (h : NoSmallOddFactor n) : Passes n := by
  obtain ⟨k, m, hm, rfl⟩ := Nat.exists_eq_two_pow_mul_odd hn
  by_cases hone : m = 1
  · rw [hone, mul_one]
    exact .powTwo k
  -- the least odd prime factor `p` of the number is not below its root, so that `2 ^ k * q` is at
  -- most `p + 2`
  have hp := Nat.minFac_prime hone
  obtain ⟨q, hq⟩ := Nat.minFac_dvd m
  have hfac : (m.minFac * q).minFac = m.minFac := by rw [← hq]
  generalize m.minFac = p at *
  subst hq
  have hodd : Odd p ∧ Odd q := Nat.odd_mul.mp hm
  have hp2 : p ≠ 2 := fun h2 => absurd (h2 ▸ hodd.1) (by decide)
  have hle := h p hp hp2 (Dvd.intro_left (2 ^ k * q) (by ring))
  have hlt : 2 ^ k * (p * q) < (p + 1) * (p + 1) := by
    have hsucc := Nat.lt_succ_sqrt (2 ^ k * (p * q))
    exact hsucc.trans_le (Nat.mul_le_mul (Nat.succ_le_succ hle) (Nat.succ_le_succ hle))
  have hp3 : 3 ≤ p := by
    have := hp.two_le
    omega
  have hcof : 2 ^ k * q ≤ p + 2 := by
    by_contra hgt
    have hmul := Nat.mul_le_mul_left p (Nat.succ_le_of_lt (not_le.mp hgt))
    linarith
  rcases eq_or_ne q 1 with rfl | hq1
  · rw [mul_one] at hcof ⊢
    exact .timesPrime k p hp hp2 hcof
  have hqp := minFac_le_cofactor hfac hq1
  have hqle : p ≤ q := hqp.trans (Nat.minFac_le hodd.2.pos)
  have hk : k = 0 := by
    by_contra hk
    have htwo : 2 ≤ 2 ^ k := Nat.le_self_pow hk 2
    have hmul := Nat.mul_le_mul htwo hqle
    omega
  subst hk
  rw [pow_zero, one_mul] at hcof ⊢
  obtain ⟨a, ha⟩ := hodd.1
  obtain ⟨b, hb⟩ := hodd.2
  rcases (by omega : q = p ∨ q = p + 2) with rfl | rfl
  · exact .square q hp hp2
  · refine .twins p hp hp2 ?_
    by_contra hnot
    have hsq := Nat.minFac_sq_le_self (by omega) hnot
    have hpow := Nat.pow_le_pow_left hqp 2
    have hmul : 3 * p ≤ p ^ 2 := sq p ▸ Nat.mul_le_mul_right p hp3
    omega

theorem noSmallOddFactor_iff {n : ℕ} (hn : n ≠ 0) : NoSmallOddFactor n ↔ Passes n :=
  ⟨passes_of_noSmallOddFactor hn, noSmallOddFactor_of_passes⟩

theorem testPrime_eq {num : ℕ} (htwo : 2 ≤ num) (hmax : (num : ℤ) ≤ INT_MAX) :
    ∃ isPrime, (∀ fuel ≥ num / 2 + 2, testPrime fuel num = some (.ok isPrime)) ∧
      (isPrime = true ↔ Passes num) := by
  refine ⟨testPrimeLoop num num.sqrt 3, fun fuel hfuel => ?_, ?_⟩
  · rw [testPrime, sqroot_eq_sqrt htwo hmax hfuel]
  · rw [testPrimeLoop_three_iff, noSmallOddFactor_iff (by omega)]

/-! ## The list -/

theorem mainLoop_eq {lim : ℕ} (hlim : (lim : ℤ) < INT_MAX) (test : ℕ) (htest : 2 ≤ test) :
    ∃ more, (∀ fuel ≥ lim / 2 + 2, ∀ out, mainLoop fuel lim test out = some (.ok (out ++ more))) ∧
      more.Pairwise (· < ·) ∧ ∀ z, z ∈ more ↔ ∃ n : ℕ, z = n ∧ test ≤ n ∧ n ≤ lim ∧ Passes n := by
  induction hk : lim + 1 - test generalizing test with
  | zero =>
    refine ⟨[], fun fuel _ out => ?_, .nil, fun z => ?_⟩
    · rw [mainLoop, if_neg (by omega), List.append_nil]
    · simp only [List.not_mem_nil, false_iff]
      rintro ⟨n, -, hge, hle, -⟩
      omega
  | succ k ih =>
    obtain ⟨isPrime, hprime, hpasses⟩ := testPrime_eq htest (by omega)
    obtain ⟨more, hmore, hsorted, hmem⟩ := ih (test + 1) (by omega) (by omega)
    have hle : (test : ℤ) ≤ lim := by omega
    have hne : (test : ℤ) ≠ INT_MAX := by omega
    refine ⟨if isPrime then (test : ℤ) :: more else more, fun fuel hfuel out => ?_, ?_, fun z => ?_⟩
    · have hrest := hmore fuel hfuel (if isPrime then out ++ [(test : ℤ)] else out)
      push_cast at hrest
      rw [mainLoop, if_pos hle, hprime fuel (by omega)]
      simp only [if_neg hne, hrest]
      cases isPrime <;> simp
    · cases isPrime with
      | false => exact hsorted
      | true =>
        refine List.pairwise_cons.mpr ⟨fun z hz => ?_, hsorted⟩
        obtain ⟨n, rfl, hge, -⟩ := (hmem z).mp hz
        exact_mod_cast hge
    · have hsplit : (∃ n : ℕ, z = n ∧ test ≤ n ∧ n ≤ lim ∧ Passes n) ↔
          (z = test ∧ isPrime = true) ∨ z ∈ more := by
        rw [hmem z]
        constructor
        · rintro ⟨n, rfl, hge, hle, hn⟩
          rcases hge.eq_or_lt with rfl | hlt
          · exact Or.inl ⟨rfl, hpasses.mpr hn⟩
          · exact Or.inr ⟨n, rfl, hlt, hle, hn⟩
        · rintro (⟨rfl, hp⟩ | ⟨n, rfl, hge, hle, hn⟩)
          · exact ⟨test, rfl, le_rfl, by omega, hpasses.mp hp⟩
          · exact ⟨n, rfl, by omega, hle, hn⟩
      rw [hsplit]
      cases isPrime <;> simp

/-- With every limit but the largest `int` the program ends without a fault. It prints 2 and then,
in increasing order, the numbers from 3 up to the limit that pass. -/
theorem prime_list_exact (lim : ℤ) (hlim : lim < INT_MAX) :
    ∃ rounds out, (∀ fuel ≥ rounds, printed fuel lim = some (.ok (2 :: out))) ∧
      out.Pairwise (· < ·) ∧ ∀ z, z ∈ out ↔ 3 ≤ z ∧ z ≤ lim ∧ Passes z.toNat := by
  rcases lt_or_ge lim 0 with hneg | hpos
  · refine ⟨0, [], fun fuel _ => ?_, .nil, fun z => ?_⟩
    · rw [printed, mainLoop, if_neg (by omega)]
    · simp only [List.not_mem_nil, false_iff]
      omega
  obtain ⟨lim, rfl⟩ := Int.eq_ofNat_of_zero_le hpos
  obtain ⟨out, hout, hsorted, hmem⟩ := mainLoop_eq hlim 3 (by decide)
  refine ⟨lim / 2 + 2, out, fun fuel hfuel => hout fuel hfuel [2], hsorted, fun z => ?_⟩
  rw [hmem z]
  constructor
  · rintro ⟨n, rfl, hge, hle, hn⟩
    exact ⟨by exact_mod_cast hge, by exact_mod_cast hle, hn⟩
  · rintro ⟨hge, hle, hn⟩
    exact ⟨z.toNat, by omega, by omega, by omega, hn⟩

/-- Up to 12 the program takes every number for a prime. -/
theorem prime_list_exact_twelve :
    (12 : ℤ) < INT_MAX ∧ printed 8 12 = some (.ok [2, 3, 4, 5, 6, 7, 8, 9, 10, 11, 12]) ∧
      ∃ rounds out, (∀ fuel ≥ rounds, printed fuel 12 = some (.ok (2 :: out))) ∧
        out.Pairwise (· < ·) ∧ ∀ z, z ∈ out ↔ 3 ≤ z ∧ z ≤ 12 ∧ Passes z.toNat :=
  ⟨by decide, by decide +kernel, prime_list_exact 12 (by decide)⟩

end Tlpi.Debug.PrimeBug
