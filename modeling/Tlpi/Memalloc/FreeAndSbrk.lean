import Tlpi.Common.GetNum
import Tlpi.Lib.CInt

/-! The blocks that `memalloc/free_and_sbrk.c` frees. The index of the loop is compared with its
limit from below only, so that it must not wrap around before the loop ends. -/

namespace Tlpi.Memalloc.FreeAndSbrk
open Lib Common

def MAX_ALLOCS : ℤ := 1000000

structure Args where
  numAllocs : ℤ
  blockSize : ℤ
  freeStep : ℤ
  freeMin : ℤ
  freeMax : ℤ
  deriving DecidableEq

def usageErr (prog : String) : String :=
  "Usage: " ++ prog ++ " num-allocs block-size [step [min [max]]]\n"

def cmdLineErr (message : String) : String := "Command-line usage error: " ++ message

/-- An argument that may be left out. -/
def getOption (arg : Option (List Char)) (name : String) (default : ℤ) : Except String ℤ :=
  match arg with
  | some arg => getInt (some arg) GN_GT_0 (some name)
  | none => .ok default

/-- `args` are the arguments behind the name of the program. -/
def parseArgs (prog : String) (args : List (List Char)) : Except String Args :=
  match args with
  | num :: size :: options =>
    if num = "--help".toList then .error (usageErr prog)
    else do
      let numAllocs ← getInt (some num) GN_GT_0 (some "num-allocs")
      if numAllocs > MAX_ALLOCS then .error (cmdLineErr "num-allocs > 1000000\n")
      else do
        let blockSize ← getInt (some size) (GN_GT_0 ||| GN_ANY_BASE) (some "block-size")
        let freeStep ← getOption options[0]? "step" 1
        let freeMin ← getOption options[1]? "min" 1
        let freeMax ← getOption options[2]? "max" numAllocs
        if freeMax > numAllocs then .error (cmdLineErr "free-max > num-allocs\n")
        else .ok ⟨numAllocs, blockSize, freeStep, freeMin, freeMax⟩
  | _ => .error (usageErr prog)

/-- The indices of `ptr` that are used in at most `n` rounds from `j` on, and whether the loop has
ended then. -/
def freeLoop (freeStep freeMax : ℤ) : ℕ → ℤ → List ℤ × Bool
  | 0, j => ([], freeMax ≤ j)
  | n + 1, j =>
    if j < freeMax then
      let rest := freeLoop freeStep freeMax n ((j + freeStep).bmod (2 ^ 32))
      (j :: rest.1, rest.2)
    else ([], true)

def freed (a : Args) (n : ℕ) : List ℤ × Bool := freeLoop a.freeStep a.freeMax n (a.freeMin - 1)

/-! ## Arguments -/

structure Admitted (a : Args) : Prop where
  numAllocs_pos : 0 < a.numAllocs
  numAllocs_le : a.numAllocs ≤ MAX_ALLOCS
  freeStep_pos : 0 < a.freeStep
  freeStep_le : a.freeStep ≤ INT_MAX
  freeMin_pos : 0 < a.freeMin
  freeMax_le : a.freeMax ≤ a.numAllocs

theorem getInt_pos {arg : Option (List Char)} {name : Option String} {v : ℤ}
    (h : getInt arg GN_GT_0 name = .ok v) : 0 < v ∧ v ≤ INT_MAX := by
  obtain ⟨haccepted, -, hmax⟩ := getInt_eq_ok_iff.mp h
  exact ⟨haccepted.pos (by decide), hmax⟩

theorem getOption_pos {arg : Option (List Char)} {name : String} {default v : ℤ}
    (hdefault : 0 < default ∧ default ≤ INT_MAX) (h : getOption arg name default = .ok v) :
    0 < v ∧ v ≤ INT_MAX := by
  cases arg with
  | some arg => exact getInt_pos h
  | none => exact Except.ok.inj h ▸ hdefault

theorem parseArgs_admitted {prog : String} {args : List (List Char)} {a : Args}
    (h : parseArgs prog args = .ok a) : Admitted a := by
  unfold parseArgs at h
  split at h
  · simp only [guard_eq_ok_iff, bind_eq_ok_iff, not_lt] at h
    obtain ⟨-, num, hnum, hle, size, -, step, hstep, min, hmin, max, -, hmax, ha⟩ := h
    obtain rfl := Except.ok.inj ha
    have hone : (0 : ℤ) < 1 ∧ (1 : ℤ) ≤ INT_MAX := by decide
    exact ⟨(getInt_pos hnum).1, hle, (getOption_pos hone hstep).1, (getOption_pos hone hstep).2,
      (getOption_pos hone hmin).1, hmax⟩
  · cases h

/-! ## The loop -/

section Loop
variable {s m : ℤ}

/-- The number at which a loop from `j` on ends. -/
def stop (s m j : ℤ) : ℤ := j + ((m - 1 - j) / s + 1) * s

theorem stop_add (hs : 0 < s) (j : ℤ) : stop s m (j + s) = stop s m j := by
  have hdiv : (m - 1 - (j + s)) / s = (m - 1 - j) / s - 1 := by
    rw [← sub_sub, Int.sub_ediv_of_dvd _ dvd_rfl, Int.ediv_self hs.ne']
  unfold stop
  rw [hdiv]
  ring

theorem stop_of_last {j : ℤ} (hj : j < m) (hlast : m ≤ j + s) : stop s m j = j + s := by
  unfold stop
  rw [Int.ediv_eq_zero_of_lt (by omega) (by omega)]
  ring

theorem add_le_stop (hs : 0 < s) {j : ℤ} (hj : j < m) : j + s ≤ stop s m j := by
  have hdiv : 0 ≤ (m - 1 - j) / s := Int.ediv_nonneg (by omega) hs.le
  unfold stop
  nlinarith only [hs, hdiv]

/-- As long as no sum wraps around the indices increase. -/
theorem freeLoop_spec (hs : 0 < s) (n : ℕ) {j : ℤ} (hj : 0 ≤ j)
    (hstop : j < m → stop s m j ≤ INT_MAX) :
    (∀ i ∈ (freeLoop s m n j).1, j ≤ i ∧ i < m) ∧ (freeLoop s m n j).1.Pairwise (· < ·) ∧
      (m - j ≤ n → (freeLoop s m n j).2 = true) := by
  induction n generalizing j with
  | zero =>
    refine ⟨List.forall_mem_nil _, .nil, fun hn => decide_eq_true ?_⟩
    rw [Nat.cast_zero] at hn
    omega
  | succ n ih =>
    rw [freeLoop]
    split_ifs with hlt
    · have hle := add_le_stop hs hlt
      have hwrap : (j + s).bmod (2 ^ 32) = j + s :=
        bmod_of_int (by unfold INT_MIN; omega) (hle.trans (hstop hlt))
      obtain ⟨hrange, hsorted, hended⟩ := ih (show 0 ≤ j + s by omega) fun _ => by
        rw [stop_add hs]
        exact hstop hlt
      rw [hwrap]
      refine ⟨?_, ?_, ?_⟩
      · intro i hi
        rcases List.mem_cons.mp hi with rfl | hi
        · exact ⟨le_rfl, hlt⟩
        · have := hrange i hi
          omega
      · refine List.pairwise_cons.mpr ⟨?_, hsorted⟩
        intro i hi
        have := hrange i hi
        omega
      · intro hn
        push_cast at hn
        exact hended (by omega)
    · exact ⟨List.forall_mem_nil _, .nil, fun _ => rfl⟩

/-- A sum that wraps around gives a negative index. -/
theorem freeLoop_neg (hs : 0 < s) (hsmax : s ≤ INT_MAX) (hm : m ≤ MAX_ALLOCS) {j : ℤ} (hj : 0 ≤ j)
    (hlt : j < m) (hstop : INT_MAX < stop s m j) : ∃ n, ∃ i ∈ (freeLoop s m n j).1, i < 0 := by
  have hmax : INT_MAX = 2147483647 := rfl
  have hallocs : MAX_ALLOCS = 1000000 := rfl
  induction hd : (m - j).toNat using Nat.strong_induction_on generalizing j with
  | _ d ih =>
    rcases lt_or_ge (j + s) m with hnext | hlast
    · have hwrap : (j + s).bmod (2 ^ 32) = j + s :=
        bmod_of_int (by unfold INT_MIN; omega) (by omega)
      obtain ⟨n, i, hi, hneg⟩ := ih _ (by omega) (show 0 ≤ j + s by omega) hnext
        (by rwa [stop_add hs]) rfl
      refine ⟨n + 1, i, ?_, hneg⟩
      rw [freeLoop, if_pos hlt, hwrap]
      exact List.mem_cons_of_mem j hi
    · rw [stop_of_last hlt hlast] at hstop
      have hwrap : (j + s).bmod (2 ^ 32) = j + s - 2 ^ 32 := by
        rw [Int.bmod_def]
        split_ifs <;> omega
      have hneg : j + s - 2 ^ 32 < 0 := by omega
      refine ⟨2, j + s - 2 ^ 32, ?_, hneg⟩
      rw [freeLoop, if_pos hlt, hwrap, freeLoop, if_pos (by omega)]
      exact List.mem_cons_of_mem j List.mem_cons_self

end Loop

/-- The blocks that are freed have been allocated, and each is freed once, exactly if the number at
which the loop ends is an `int`. -/
theorem freed_allocated_iff (prog : String) (args : List (List Char)) (a : Args)
    (h : parseArgs prog args = .ok a) :
    (∀ n, (∀ j ∈ (freed a n).1, 0 ≤ j ∧ j < a.numAllocs) ∧ (freed a n).1.Nodup) ∧
      (freed a a.numAllocs.toNat).2 = true ↔
    a.freeMax < a.freeMin ∨
      a.freeMin - 1 + ((a.freeMax - a.freeMin) / a.freeStep + 1) * a.freeStep ≤ INT_MAX := by
  obtain ⟨hnum, hnumMax, hstep, hstepMax, hmin, hmax⟩ := parseArgs_admitted h
  have hstart : 0 ≤ a.freeMin - 1 := by omega
  have hstop : a.freeMin - 1 + ((a.freeMax - a.freeMin) / a.freeStep + 1) * a.freeStep =
      stop a.freeStep a.freeMax (a.freeMin - 1) := by
    unfold stop
    rw [sub_sub_sub_cancel_right]
  rw [hstop]
  constructor
  · rintro ⟨hfreed, -⟩
    by_contra hnot
    obtain ⟨hle, hover⟩ := not_or.mp hnot
    obtain ⟨n, j, hj, hneg⟩ := freeLoop_neg hstep hstepMax (hmax.trans hnumMax) hstart (by omega)
      (not_le.mp hover)
    have := ((hfreed n).1 j hj).1
    omega
  · intro hor
    have hspec := fun n => freeLoop_spec hstep n hstart fun hlt =>
      hor.resolve_left (by omega)
    refine ⟨fun n => ⟨?_, ?_⟩, ?_⟩
    · intro j hj
      have := (hspec n).1 j hj
      omega
    · exact (hspec n).2.1.imp fun hlt => hlt.ne
    · exact (hspec _).2.2 (by omega)

/-- The arguments of the first call that the program's usage suggests. -/
theorem freed_allocated_suggested :
    parseArgs "free_and_sbrk" ["1000".toList, "10240".toList, "2".toList, "1".toList,
      "1000".toList] = .ok ⟨1000, 10240, 2, 1, 1000⟩ ∧
    ∀ n, (∀ j ∈ (freed ⟨1000, 10240, 2, 1, 1000⟩ n).1, 0 ≤ j ∧ j < 1000) ∧
      (freed ⟨1000, 10240, 2, 1, 1000⟩ n).1.Nodup := by
  have hparse : parseArgs "free_and_sbrk" ["1000".toList, "10240".toList, "2".toList, "1".toList,
      "1000".toList] = .ok ⟨1000, 10240, 2, 1, 1000⟩ := by decide +kernel
  exact ⟨hparse, ((freed_allocated_iff _ _ _ hparse).mpr (.inr (by decide))).1⟩

/-- With a step of `INT_MAX` the loop goes from the last block to the smallest `int`. -/
theorem freed_negative_index :
    parseArgs "free_and_sbrk" ["2".toList, "1".toList, "2147483647".toList, "2".toList,
      "2".toList] = .ok ⟨2, 1, 2147483647, 2, 2⟩ ∧
    (freed ⟨2, 1, 2147483647, 2, 2⟩ 2).1 = [1, -2147483648] ∧
    ¬ ∀ n, ∀ j ∈ (freed ⟨2, 1, 2147483647, 2, 2⟩ n).1, 0 ≤ j ∧ j < 2 := by
  have htwo : (freed ⟨2, 1, 2147483647, 2, 2⟩ 2).1 = [1, -2147483648] := by decide +kernel
  refine ⟨by decide +kernel, htwo, fun h => ?_⟩
  have hrange := h 2 (-2147483648) (by simp [htwo])
  exact absurd hrange.1 (by decide)

end Tlpi.Memalloc.FreeAndSbrk
