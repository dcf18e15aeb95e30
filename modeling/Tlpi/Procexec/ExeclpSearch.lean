import Tlpi.Procexec.Execlp

/-! The search of `execlp()`: the pathnames that it tries for every value of `PATH`, the error that
it returns, and the script and the arguments that it gives to the shell. -/

namespace Tlpi.Procexec
open Lib

/-! ## The pathnames that are tried -/

/-- The pathname for a directory of `PATH`. -/
def candidate (filename d : List Char) : List Char :=
  (if d = [] then ['.'] else d) ++ '/' :: filename

section Search
variable {filename : List Char} {argc : ℕ} {argv envp : List Slot} {file shell : ℕ → Option Errno}

/-- The attempt as number `i` does not lead to a running program. -/
def Fails (file shell : ℕ → Option Errno) (i : ℕ) : Prop :=
  file i ≠ none ∧ (file i = some .ENOEXEC → shell i ≠ none)

theorem attempt_of_fails {i : ℕ} (h : Fails file shell i) (pathname : List Char) (size : ℕ) :
    (attempt argc argv envp file shell i pathname size).2 = file i := by
  obtain ⟨errno, herrno⟩ := Option.ne_none_iff_exists'.mp h.1
  rw [attempt, herrno]
  dsimp only
  split_ifs with hnoexec
  · obtain ⟨e, he⟩ := Option.ne_none_iff_exists'.mp (h.2 (hnoexec ▸ herrno))
    rw [he]
    rfl
  · rfl

theorem attempt_of_not_fails {i : ℕ} (h : ¬ Fails file shell i) (pathname : List Char) (size : ℕ) :
    (attempt argc argv envp file shell i pathname size).2 = none := by
  rw [attempt]
  cases herrno : file i with
  | none => rfl
  | some errno =>
    dsimp only
    split_ifs with hnoexec
    · cases hshell : shell i with
      | none => rfl
      | some e =>
        exfalso
        apply h
        constructor
        · simp [herrno]
        · simp [hshell]
    · exfalso
      apply h
      constructor
      · simp [herrno]
      · intro he
        exact absurd (Option.some.inj (herrno.symm.trans he)) hnoexec

theorem attempt_fst (i : ℕ) (pathname : List Char) (size : ℕ) :
    (attempt argc argv envp file shell i pathname size).1 =
      ⟨pathname, size, argv, envp,
        if file i = some .ENOEXEC then some (execShScript argc argv envp) else none⟩ := by
  unfold attempt
  cases file i with
  | none => rfl
  | some errno =>
    simp only [Option.some.injEq]
    split_ifs <;> rfl

variable (filename argc argv envp file shell) in
/-- The loop over the directories of `PATH` as a list. -/
def tryEach (i : ℕ) (fndEACCES : Bool) (savedErrno : Errno) : List (List Char) → Result
  | [] => ⟨some (-1, if fndEACCES then .EACCES else savedErrno), []⟩
  | d :: ds =>
    let a := attempt argc argv envp file shell i (candidate filename d)
      (max 1 d.length + filename.length + 2)
    match a.2 with
    | none => ⟨none, [a.1]⟩
    | some savedErrno =>
      let r := tryEach (i + 1) (fndEACCES || savedErrno == .EACCES) savedErrno ds
      ⟨r.ret, a.1 :: r.attempts⟩

theorem prefixPathname_eq (d rest : List Char) (h : prefixLength (d ++ rest) = d.length) :
    prefixPathname filename (d ++ rest) = candidate filename d := by
  rw [prefixPathname, h, List.take_left, candidate]
  simp only [List.length_eq_zero_iff]

section Loop
variable {i : ℕ} {d rest : List Char} {a : Attempt}

theorem searchLoop_of_none (fndEACCES : Bool) (hd : prefixLength (d ++ rest) = d.length)
    (ha : attempt argc argv envp file shell i (candidate filename d)
      (max 1 d.length + filename.length + 2) = (a, none)) :
    searchLoop filename argc argv envp file shell i fndEACCES (d ++ rest) = ⟨none, [a]⟩ := by
  rw [searchLoop, prefixPathname_eq d rest hd, hd]
  simp only [ha]

theorem searchLoop_of_some (fndEACCES : Bool) (hd : prefixLength (d ++ rest) = d.length)
    {savedErrno : Errno} (ha : attempt argc argv envp file shell i (candidate filename d)
      (max 1 d.length + filename.length + 2) = (a, some savedErrno)) :
    (rest = [] → searchLoop filename argc argv envp file shell i fndEACCES (d ++ rest) =
      ⟨some (-1, if fndEACCES || savedErrno == .EACCES then .EACCES else savedErrno), [a]⟩) ∧
    ∀ next, rest = ':' :: next →
      searchLoop filename argc argv envp file shell i fndEACCES (d ++ rest) =
        ⟨(searchLoop filename argc argv envp file shell (i + 1)
            (fndEACCES || savedErrno == .EACCES) next).ret,
          a :: (searchLoop filename argc argv envp file shell (i + 1)
            (fndEACCES || savedErrno == .EACCES) next).attempts⟩ := by
  rw [searchLoop, prefixPathname_eq d rest hd, hd]
  simp only [ha]
  split
  · next hnil =>
    rw [List.drop_left] at hnil
    subst hnil
    exact ⟨fun _ => rfl, fun next hnext => absurd hnext.symm (List.cons_ne_nil _ _)⟩
  · next c next' hcons =>
    rw [List.drop_left] at hcons
    subst hcons
    refine ⟨fun hnil => absurd hnil (List.cons_ne_nil _ _), fun next hnext => ?_⟩
    rw [(List.cons.inj hnext).2]

end Loop

/-- The two pointers and the flag walk through the parts between the colons. -/
theorem searchLoop_eq (i : ℕ) (fndEACCES : Bool) (savedErrno : Errno) (prStart : List Char) :
    searchLoop filename argc argv envp file shell i fndEACCES prStart =
      tryEach filename argc argv envp file shell i fndEACCES savedErrno (prStart.splitOn ':') := by
  induction hn : prStart.length using Nat.strong_induction_on generalizing
    i fndEACCES savedErrno prStart with
  | _ n ih =>
    cases hprEnd : strchr ':' prStart with
    | none =>
      have hlength : prefixLength (prStart ++ []) = prStart.length := by
        rw [List.append_nil, prefixLength, hprEnd]
      rw [splitOn_of_strchr_none hprEnd, tryEach, ← List.append_nil prStart]
      rcases ha : attempt argc argv envp file shell i (candidate filename prStart)
        (max 1 prStart.length + filename.length + 2) with ⟨a, _ | errno⟩
      · rw [searchLoop_of_none fndEACCES hlength ha]
        simp only [List.append_nil, ha]
      · rw [(searchLoop_of_some fndEACCES hlength ha).1 rfl]
        simp only [List.append_nil, ha, tryEach]
    | some prEnd =>
      obtain ⟨d, next⟩ := prEnd
      obtain ⟨rfl, -⟩ := strchr_eq_some_iff.mp hprEnd
      have hlength : prefixLength (d ++ ':' :: next) = d.length := by rw [prefixLength, hprEnd]
      rw [splitOn_of_strchr_some hprEnd, tryEach]
      rcases ha : attempt argc argv envp file shell i (candidate filename d)
        (max 1 d.length + filename.length + 2) with ⟨a, _ | errno⟩
      · rw [searchLoop_of_none fndEACCES hlength ha]
      · rw [(searchLoop_of_some fndEACCES hlength ha).2 next rfl,
          ih next.length (hn ▸ strchr_length hprEnd) (i + 1) _ errno next rfl]

theorem tryEach_cons_of_fails {i : ℕ} {errno : Errno} (h : Fails file shell i)
    (herrno : file i = some errno) (fndEACCES : Bool) (savedErrno : Errno) (d : List Char)
    (ds : List (List Char)) :
    tryEach filename argc argv envp file shell i fndEACCES savedErrno (d :: ds) =
      ⟨(tryEach filename argc argv envp file shell (i + 1) (fndEACCES || errno == .EACCES) errno
          ds).ret,
        (attempt argc argv envp file shell i (candidate filename d)
          (max 1 d.length + filename.length + 2)).1 ::
        (tryEach filename argc argv envp file shell (i + 1) (fndEACCES || errno == .EACCES) errno
          ds).attempts⟩ := by
  rw [tryEach, attempt_of_fails h, herrno]

theorem tryEach_cons_of_not_fails {i : ℕ} (h : ¬ Fails file shell i) (fndEACCES : Bool)
    (savedErrno : Errno) (d : List Char) (ds : List (List Char)) :
    tryEach filename argc argv envp file shell i fndEACCES savedErrno (d :: ds) =
      ⟨none, [(attempt argc argv envp file shell i (candidate filename d)
        (max 1 d.length + filename.length + 2)).1]⟩ := by
  rw [tryEach, attempt_of_not_fails h]

/-- The attempts before the one as number `k` fail, and that one does not if there is one. -/
theorem tryEach_take {i k : ℕ} (hik : i ≤ k) (fndEACCES : Bool) (savedErrno : Errno)
    (ds : List (List Char)) (hfails : ∀ j, i ≤ j → j < k → Fails file shell j)
    (hsucceeds : k < i + ds.length → ¬ Fails file shell k) :
    (tryEach filename argc argv envp file shell i fndEACCES savedErrno ds).attempts.map
      Attempt.pathname = (ds.take (k - i + 1)).map (candidate filename) ∧
    (k < i + ds.length →
      (tryEach filename argc argv envp file shell i fndEACCES savedErrno ds).ret = none) := by
  induction ds generalizing i fndEACCES savedErrno with
  | nil => exact ⟨rfl, fun hk => absurd hk (by rw [List.length_nil]; omega)⟩
  | cons d ds ih =>
    rw [List.length_cons] at hsucceeds ⊢
    rcases hik.eq_or_lt with rfl | hlt
    · rw [tryEach_cons_of_not_fails (hsucceeds (by omega)), Nat.sub_self, attempt_fst]
      exact ⟨rfl, fun _ => rfl⟩
    · have hfirst := hfails i le_rfl hlt
      obtain ⟨errno, herrno⟩ := Option.ne_none_iff_exists'.mp hfirst.1
      obtain ⟨hattempts, hret⟩ := ih hlt (fndEACCES || errno == .EACCES) errno
        (fun j hj => hfails j (Nat.le_of_succ_le hj)) (fun hk => hsucceeds (by omega))
      have htake : k - i + 1 = k - (i + 1) + 1 + 1 := by omega
      rw [tryEach_cons_of_fails hfirst herrno, htake, List.map_cons, hattempts, attempt_fst,
        List.take_succ_cons, List.map_cons]
      exact ⟨rfl, fun hk => hret (by omega)⟩

/-- Every pathname fits the buffer that is allocated for it, whatever the calls return. -/
theorem tryEach_mem {i : ℕ} {fndEACCES : Bool} {savedErrno : Errno} {ds : List (List Char)}
    {a : Attempt}
    (ha : a ∈ (tryEach filename argc argv envp file shell i fndEACCES savedErrno ds).attempts) :
    ∃ j pathname size, a = (attempt argc argv envp file shell j pathname size).1 ∧
      pathname.length + 1 ≤ size := by
  induction ds generalizing i fndEACCES savedErrno with
  | nil => cases ha
  | cons d ds ih =>
    have hfits : (candidate filename d).length + 1 ≤ max 1 d.length + filename.length + 2 := by
      rw [candidate, List.length_append, List.length_cons]
      split_ifs with hd
      · rw [List.length_singleton]
        omega
      · omega
    by_cases hfails : Fails file shell i
    · obtain ⟨errno, herrno⟩ := Option.ne_none_iff_exists'.mp hfails.1
      rw [tryEach_cons_of_fails hfails herrno] at ha
      rcases List.mem_cons.mp ha with rfl | ha
      · exact ⟨i, _, _, rfl, hfits⟩
      · exact ih ha
    · rw [tryEach_cons_of_not_fails hfails] at ha
      exact ⟨i, _, _, List.mem_singleton.mp ha, hfits⟩

end Search

/-! ## The error that is returned -/

section Errors
variable {filename : List Char} {argc : ℕ} {argv envp : List Slot} (errors shErrors : ℕ → Errno)

theorem fails_of_errors (i : ℕ) :
    Fails (fun j => some (errors j)) (fun j => some (shErrors j)) i :=
  ⟨Option.some_ne_none _, fun _ => Option.some_ne_none _⟩

theorem tryEach_ret_of_EACCES {i : ℕ} {fndEACCES : Bool} (savedErrno : Errno)
    (ds : List (List Char))
    (h : fndEACCES = true ∨ ∃ j, i ≤ j ∧ j < i + ds.length ∧ errors j = .EACCES) :
    (tryEach filename argc argv envp (fun j => some (errors j)) (fun j => some (shErrors j)) i
      fndEACCES savedErrno ds).ret = some (-1, .EACCES) := by
  induction ds generalizing i fndEACCES savedErrno with
  | nil =>
    rcases h with rfl | ⟨j, hij, hj, -⟩
    · rfl
    · exact absurd hj (by rw [List.length_nil]; omega)
  | cons d ds ih =>
    rw [tryEach_cons_of_fails (fails_of_errors errors shErrors i) rfl]
    apply ih
    rcases h with rfl | ⟨j, hij, hj, herrno⟩
    · exact .inl rfl
    · rcases hij.eq_or_lt with rfl | hlt
      · left
        rw [herrno, Bool.or_eq_true]
        exact .inr rfl
      · rw [List.length_cons] at hj
        exact .inr ⟨j, hlt, by omega, herrno⟩

theorem tryEach_ret_of_no_EACCES {i : ℕ} (ds : List (List Char))
    (h : ∀ j, i < j → j ≤ i + ds.length → errors j ≠ .EACCES) :
    (tryEach filename argc argv envp (fun j => some (errors j)) (fun j => some (shErrors j)) (i + 1)
      false (errors i) ds).ret = some (-1, errors (i + ds.length)) := by
  induction ds generalizing i with
  | nil => rfl
  | cons d ds ih =>
    rw [List.length_cons] at h
    have hfirst : (errors (i + 1) == Errno.EACCES) = false :=
      beq_eq_false_iff_ne.mpr (h (i + 1) (Nat.lt_succ_self i) (by omega))
    rw [tryEach_cons_of_fails (fails_of_errors errors shErrors (i + 1)) rfl, hfirst,
      Bool.or_false, ih fun j hj hle => h j (by omega) (by omega), List.length_cons,
      Nat.add_right_comm, Nat.add_assoc]

theorem tryEach_ret (savedErrno : Errno) (ds : List (List Char)) (hne : ds ≠ []) :
    (tryEach filename argc argv envp (fun j => some (errors j)) (fun j => some (shErrors j)) 0
      false savedErrno ds).ret = some (-1, if ∃ j < ds.length, errors j = .EACCES then .EACCES
        else errors (ds.length - 1)) := by
  split_ifs with h
  · obtain ⟨j, hj, herrno⟩ := h
    exact tryEach_ret_of_EACCES errors shErrors savedErrno ds
      (.inr ⟨j, Nat.zero_le j, by omega, herrno⟩)
  · have hnone : ∀ j < ds.length, errors j ≠ .EACCES := fun j hj he => h ⟨j, hj, he⟩
    obtain ⟨d, ds, rfl⟩ := List.exists_cons_of_ne_nil hne
    rw [List.length_cons] at hnone
    have hfirst : (errors 0 == Errno.EACCES) = false :=
      beq_eq_false_iff_ne.mpr (hnone 0 (Nat.succ_pos _))
    rw [tryEach_cons_of_fails (fails_of_errors errors shErrors 0) rfl, hfirst, Bool.or_false,
      tryEach_ret_of_no_EACCES errors shErrors ds fun j _ hj => hnone j (by omega), Nat.zero_add]
    rfl

end Errors

section TryExec
variable (filename : List Char) (argc : ℕ) (argv envp : List Slot)

theorem tryExec_of_mem (file shell : ℕ → Option Errno) (p : Option (List Char))
    (h : '/' ∈ filename) :
    tryExec filename argc argv envp file shell p =
      ⟨(attempt argc argv envp file shell 0 filename (filename.length + 1)).2.map (-1, ·),
        [(attempt argc argv envp file shell 0 filename (filename.length + 1)).1]⟩ := by
  rw [tryExec]
  split
  · rfl
  · next hnone => exact absurd h (strchr_eq_none_iff.mp hnone)

/-- The directory that is searched if `PATH` is not set or empty is an empty part of it. -/
theorem tryExec_of_notMem (file shell : ℕ → Option Errno) (p : Option (List Char))
    (h : '/' ∉ filename) (savedErrno : Errno) :
    tryExec filename argc argv envp file shell p =
      tryEach filename argc argv envp file shell 0 false savedErrno ((p.getD []).splitOn ':') := by
  rw [tryExec, strchr_eq_none_iff.mpr h]
  dsimp only
  rw [searchLoop_eq 0 false savedErrno]
  split_ifs with hp
  · rw [hp]
    rfl
  · rfl

theorem tryExec_mem {file shell : ℕ → Option Errno} {p : Option (List Char)} {a : Attempt}
    (ha : a ∈ (tryExec filename argc argv envp file shell p).attempts) :
    ∃ j pathname size, a = (attempt argc argv envp file shell j pathname size).1 ∧
      pathname.length + 1 ≤ size := by
  by_cases h : '/' ∈ filename
  · rw [tryExec_of_mem filename argc argv envp file shell p h] at ha
    exact ⟨0, filename, filename.length + 1, List.mem_singleton.mp ha, le_rfl⟩
  · rw [tryExec_of_notMem filename argc argv envp file shell p h .ENOMEM] at ha
    exact tryEach_mem ha

/-- The search in `PATH`; the parts of an empty or missing `PATH` are one empty part. -/
theorem execlp_search_exact (p : Option (List Char)) :
    ('/' ∉ filename →
      (∀ errors shErrors : ℕ → Errno,
        (tryExec filename argc argv envp (fun j => some (errors j)) (fun j => some (shErrors j))
          p).attempts.map Attempt.pathname = ((p.getD []).splitOn ':').map (candidate filename) ∧
        (tryExec filename argc argv envp (fun j => some (errors j)) (fun j => some (shErrors j))
          p).ret = some (-1, if ∃ j < ((p.getD []).splitOn ':').length, errors j = .EACCES
            then .EACCES else errors (((p.getD []).splitOn ':').length - 1))) ∧
      ∀ file shell k, (∀ j < k, Fails file shell j) → ¬ Fails file shell k →
        k < ((p.getD []).splitOn ':').length →
        (tryExec filename argc argv envp file shell p).attempts.map Attempt.pathname =
          (((p.getD []).splitOn ':').take (k + 1)).map (candidate filename) ∧
        (tryExec filename argc argv envp file shell p).ret = none) ∧
    ('/' ∈ filename → ∀ file shell,
      (tryExec filename argc argv envp file shell p).attempts.map Attempt.pathname = [filename] ∧
      (Fails file shell 0 →
        (tryExec filename argc argv envp file shell p).ret = (file 0).map (-1, ·)) ∧
      (¬ Fails file shell 0 → (tryExec filename argc argv envp file shell p).ret = none)) ∧
    ∀ file shell, ∀ a ∈ (tryExec filename argc argv envp file shell p).attempts,
      a.pathname.length + 1 ≤ a.size := by
  refine ⟨?_, ?_, ?_⟩
  · intro h
    constructor
    · intro errors shErrors
      rw [tryExec_of_notMem filename argc argv envp _ _ p h .ENOMEM]
      constructor
      · have hall := List.take_of_length_le (Nat.le_succ ((p.getD []).splitOn ':').length)
        rw [(tryEach_take (Nat.zero_le ((p.getD []).splitOn ':').length) false .ENOMEM _
          (fun j _ _ => fails_of_errors errors shErrors j) fun hlt => absurd hlt (by omega)).1,
          Nat.sub_zero, hall]
      · exact tryEach_ret errors shErrors .ENOMEM _ (List.splitOn_ne_nil _ _)
    · intro file shell k hfails hsucceeds hk
      rw [tryExec_of_notMem filename argc argv envp file shell p h .ENOMEM]
      obtain ⟨hattempts, hret⟩ := @tryEach_take filename argc argv envp file shell 0 k
        (Nat.zero_le k) false .ENOMEM ((p.getD []).splitOn ':') (fun j _ hj => hfails j hj)
        fun _ => hsucceeds
      exact ⟨hattempts, hret (by omega)⟩
  · intro h file shell
    rw [tryExec_of_mem filename argc argv envp file shell p h]
    refine ⟨?_, ?_, ?_⟩
    · rw [List.map_singleton, attempt_fst]
    · intro hfails
      rw [attempt_of_fails hfails]
    · intro hsucceeds
      rw [attempt_of_not_fails hsucceeds]
      rfl
  · intro file shell a ha
    obtain ⟨j, pathname, size, rfl, hfits⟩ := tryExec_mem filename argc argv envp ha
    rw [attempt_fst]
    exact hfits

end TryExec

/-- Empty parts at both ends; the second call fails with `EACCES`, the others with `ENOENT`. -/
theorem execlp_search_exact_colons :
    '/' ∉ "ls".toList ∧
    (tryExec "ls".toList 1 [some "ls".toList, none] [none]
      (fun j => some (if j = 1 then .EACCES else .other 2)) (fun _ => some .ENOMEM)
      (some ":/bin:".toList)).attempts.map Attempt.pathname =
        ["./ls".toList, "/bin/ls".toList, "./ls".toList] ∧
    (tryExec "ls".toList 1 [some "ls".toList, none] [none]
      (fun j => some (if j = 1 then .EACCES else .other 2)) (fun _ => some .ENOMEM)
      (some ":/bin:".toList)).ret = some (-1, .EACCES) := by
  have hslash : '/' ∉ "ls".toList := by decide
  obtain ⟨hsearch, -⟩ := execlp_search_exact "ls".toList 1 [some "ls".toList, none] [none]
    (some ":/bin:".toList)
  obtain ⟨hattempts, hret⟩ := (hsearch hslash).1
    (fun j => if j = 1 then .EACCES else .other 2) (fun _ => .ENOMEM)
  refine ⟨hslash, hattempts.trans (by decide), hret.trans ?_⟩
  rw [if_pos ⟨1, by decide, rfl⟩]

/-! ## The shell runs the wrong script -/

/-- What SUSv3 asks of the call of the shell. -/
structure Script.Right (s : Script) (pathname : List Char) (args : List (List Char)) : Prop where
  loads : ∀ j ∈ s.loads, j ≤ args.length
  stores : ∀ j ∈ s.stores, j < s.size
  shArgv : ∃ behind, s.shArgv = (array (SHELL_PATH :: pathname :: args.tail) []).map some ++ behind

/-- The fields after the first `n` passes of the loop. -/
theorem foldl_copy (argv : List Slot) (s : Script) (n : ℕ) :
    (List.range n).foldl (Script.copy argv) s =
      { s with
        loads := s.loads ++ List.range n
        stores := s.stores ++ (List.range n).map (· + 1)
        shArgv := (List.range n).foldl (fun v j => v.set (j + 1) argv[j]?) s.shArgv } := by
  induction n with
  | zero => simp
  | succ n ih =>
    rw [List.range_succ, List.foldl_append, ih]
    simp [Script.copy]

/-- The loop goes one step too far, and the vector begins with the first argument. -/
theorem execShScript_array (args : List (List Char)) (behind envp : List Slot) :
    (execShScript (args.length + 1) (array args behind) envp).loads =
      List.range (args.length + 2) ∧
    (execShScript (args.length + 1) (array args behind) envp).stores =
      List.range (args.length + 3) ∧
    (execShScript (args.length + 1) (array args behind) envp).shArgv =
      (array (SHELL_PATH :: args) []).map some := by
  rw [execShScript, foldl_copy]
  refine ⟨List.nil_append _, ?_, ?_⟩
  · exact List.range_succ_eq_map.symm
  · apply List.ext_getElem?
    intro i
    rw [getElem?_foldl_set, List.getElem?_map]
    cases i with
    | zero => rfl
    | succ i =>
      by_cases hi : i ≤ args.length
      · rw [if_pos (by simp [Script.start]; omega), Nat.add_sub_cancel, array_getElem? hi,
          array_getElem? (Nat.succ_le_succ hi)]
        rfl
      · rw [if_neg (by simp [Script.start]; omega), List.getElem?_eq_none
          (by simp [Script.start]; omega), List.getElem?_eq_none
          (by rw [length_array, List.length_cons, List.length_nil]; omega)]
        rfl

theorem execShScript_not_right (args : List (List Char)) (behind envp : List Slot)
    (pathname : List Char) :
    ¬ (execShScript (args.length + 1) (array args behind) envp).Right pathname args := by
  intro h
  have hload := h.loads (args.length + 1)
  rw [(execShScript_array args behind envp).1, List.mem_range] at hload
  exact absurd (hload (by omega)) (by omega)

section Fallback
variable {filename : List Char} {argc : ℕ} {argv envp : List Slot} {file shell : ℕ → Option Errno}

theorem tryEach_fallback {i : ℕ} (fndEACCES : Bool) (savedErrno : Errno) (ds : List (List Char)) :
    (∀ a ∈ (tryEach filename argc argv envp file shell i fndEACCES savedErrno ds).attempts,
      a.fallback = none) ↔
    ∀ j < ds.length, (∀ j' < j, file (i + j') ≠ none) → file (i + j) ≠ some .ENOEXEC := by
  induction ds generalizing i fndEACCES savedErrno with
  | nil => exact iff_of_true (List.forall_mem_nil _) fun j hj => absurd hj (Nat.not_lt_zero j)
  | cons d ds ih =>
    rw [List.length_cons, Nat.forall_lt_succ_left]
    simp only [Nat.forall_lt_succ_left, Nat.add_zero, Nat.not_lt_zero, false_implies, implies_true,
      true_implies]
    cases herrno : file i with
    | none =>
      have hruns : ¬ Fails file shell i := fun h => h.1 herrno
      rw [tryEach_cons_of_not_fails hruns]
      simp [attempt_fst, herrno]
    | some errno =>
      by_cases hnoexec : errno = .ENOEXEC
      · subst hnoexec
        have hfirst : (attempt argc argv envp file shell i (candidate filename d)
            (max 1 d.length + filename.length + 2)).1.fallback ≠ none := by
          rw [attempt_fst, if_pos herrno]
          exact Option.some_ne_none _
        apply iff_of_false
        · intro h
          apply hfirst
          apply h
          by_cases hfails : Fails file shell i
          · rw [tryEach_cons_of_fails hfails herrno]
            exact List.mem_cons_self
          · rw [tryEach_cons_of_not_fails hfails]
            exact List.mem_cons_self
        · exact fun h => h.1 rfl
      · have hother : file i ≠ some .ENOEXEC := by
          rw [herrno]
          exact fun h => hnoexec (Option.some.inj h)
        have hfails : Fails file shell i :=
          ⟨by rw [herrno]; exact Option.some_ne_none _, fun h => absurd h hother⟩
        have hrest := @ih (i + 1) (fndEACCES || errno == .EACCES) errno
        rw [tryEach_cons_of_fails hfails herrno]
        simp only [List.forall_mem_cons, attempt_fst, if_neg hother, true_and, hrest,
          Nat.add_right_comm i 1, ← Nat.add_assoc]
        simp [hnoexec]

theorem tryExec_fallback (p : Option (List Char)) :
    (∀ a ∈ (tryExec filename argc argv envp file shell p).attempts, a.fallback = none) ↔
    ∀ i < if '/' ∈ filename then 1 else ((p.getD []).splitOn ':').length,
      (∀ j < i, file j ≠ none) → file i ≠ some .ENOEXEC := by
  split_ifs with h
  · rw [tryExec_of_mem filename argc argv envp file shell p h]
    simp [attempt_fst]
  · rw [tryExec_of_notMem filename argc argv envp file shell p h .ENOMEM, tryEach_fallback]
    simp only [Nat.zero_add]

theorem tryExec_script {p : Option (List Char)} {a : Attempt} {s : Script}
    (ha : a ∈ (tryExec filename argc argv envp file shell p).attempts) (hs : a.fallback = some s) :
    s = execShScript argc argv envp := by
  obtain ⟨j, pathname, size, rfl, -⟩ := tryExec_mem filename argc argv envp ha
  rw [attempt_fst] at hs
  exact (Option.some.inj (Option.ite_none_right_eq_some.mp hs).2).symm

end Fallback

/-- The fallback is never right: it is right in every run in which it is not tried. -/
theorem execShScript_right_iff (filename : List Char) (p : Option (List Char))
    (args : List (List Char)) (behind envp : List Slot) (file shell : ℕ → Option Errno) :
    (∀ a ∈ (tryExec filename (args.length + 1) (array args behind) envp file shell p).attempts,
      ∀ s, a.fallback = some s → s.Right a.pathname args) ↔
    ∀ i < if '/' ∈ filename then 1 else ((p.getD []).splitOn ':').length,
      (∀ j < i, file j ≠ none) → file i ≠ some .ENOEXEC := by
  rw [← tryExec_fallback]
  apply forall₂_congr
  intro a ha
  constructor
  · intro h
    rw [Option.eq_none_iff_forall_ne_some]
    intro s hs
    have hright := h s hs
    rw [tryExec_script ha hs] at hright
    exact execShScript_not_right args behind envp a.pathname hright
  · intro h s hs
    cases h.symm.trans hs

/-- A script without a first line for the kernel, found in the second directory. -/
theorem execShScript_wrong_script :
    ∃ a s, a ∈ (tryExec "s".toList 3 (array ["s".toList, "x".toList] []) [none]
        (fun j => some (if j = 1 then .ENOEXEC else .other 2)) (fun _ => none)
        (some "/a:/b".toList)).attempts ∧
      a.pathname = "/b/s".toList ∧ a.fallback = some s ∧
      s.loads = [0, 1, 2, 3] ∧ s.stores = [0, 1, 2, 3, 4] ∧ s.size = 4 ∧
      s.shArgv = (array [SHELL_PATH, "s".toList, "x".toList] []).map some ∧
      ¬ s.Right a.pathname ["s".toList, "x".toList] := by
  refine ⟨(attempt 3 (array ["s".toList, "x".toList] []) [none]
    (fun j => some (if j = 1 then .ENOEXEC else .other 2)) (fun _ => none) 1 "/b/s".toList 5).1,
    execShScript 3 (array ["s".toList, "x".toList] []) [none], ?_, ?_⟩
  · rw [tryExec_of_notMem _ _ _ _ _ _ _ (by decide) .ENOMEM]
    decide
  · refine ⟨rfl, rfl, rfl, rfl, rfl, rfl, ?_⟩
    exact execShScript_not_right ["s".toList, "x".toList] [] [none] "/b/s".toList

end Tlpi.Procexec
