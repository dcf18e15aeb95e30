import Tlpi.Procexec.ExeclpSearch

/-! The argument vector and the environment that `execlp()` hands to `execve()`. The vector has room
for 98 arguments. -/

namespace Tlpi.Procexec
open Lib

theorem copyEnviron_eq (environ : List Slot) :
    copyEnviron environ = array (entries environ) [] := by
  unfold copyEnviron
  apply List.ext_getElem?
  intro i
  have hfill := getElem?_foldl_set (fun j => (entries environ)[j]?)
    (calloc ((entries environ).length + 1)) 0 (entries environ).length i
  have hlength := length_foldl_set (fun j => (entries environ)[j]?)
    (calloc ((entries environ).length + 1)) 0 (entries environ).length
  simp only [Nat.add_zero, Nat.sub_zero, Nat.zero_le, true_and] at hfill hlength
  dsimp only
  rw [List.getElem?_set, hlength, hfill, calloc, List.length_replicate]
  rcases Nat.lt_trichotomy i (entries environ).length with hlt | rfl | hgt
  · rw [if_neg hlt.ne', if_pos ⟨hlt, by omega⟩, array_getElem? hlt.le]
  · rw [if_pos rfl, if_pos (Nat.lt_succ_self _), array_getElem? le_rfl,
      List.getElem?_eq_none le_rfl]
  · rw [if_neg hgt.ne, if_neg (by omega), List.getElem?_eq_none
      (by rw [List.length_replicate]; exact hgt), List.getElem?_eq_none
      (by rw [length_array, List.length_nil]; exact hgt)]

/-! ## Up to 98 arguments -/

/-- The state of the loop when these arguments have been stored. -/
def Build.holding (done : List (List Char)) : Build :=
  ⟨done.map some ++ calloc (100 - done.length), done.length, 100⟩

theorem holding_argv_length {done : List (List Char)} (h : done.length ≤ 100) :
    (Build.holding done).argv.length = 100 := by
  simp only [Build.holding, calloc, List.length_append, List.length_map, List.length_replicate]
  omega

theorem holding_test (done : List (List Char)) (arg : List Char) :
    (Build.holding (done ++ [arg])).argv[(Build.holding (done ++ [arg])).argc - 1]? =
      some (some arg) := by
  simp [Build.holding]

theorem holding_set {done : List (List Char)} (h : done.length < 100) (arg : Slot) :
    (Build.holding done).argv.set done.length arg =
      done.map some ++ arg :: calloc (100 - (done.length + 1)) := by
  have hcalloc : calloc (100 - done.length) = none :: calloc (100 - (done.length + 1)) := by
    rw [calloc, calloc, ← List.replicate_succ]
    congr 1
    omega
  show (done.map some ++ calloc (100 - done.length)).set done.length arg = _
  rw [hcalloc, List.set_append_right _ _ (List.length_map _).le, List.length_map, Nat.sub_self,
    List.set_cons_zero]

theorem holding_resize {done : List (List Char)} (h : done.length < 99) :
    (Build.holding done).resize = Build.holding done := by
  apply if_neg
  rw [Build.full, decide_eq_true_eq]
  show ¬ done.length + 1 ≥ 100
  omega

theorem holding_push {done : List (List Char)} (h : done.length < 99) (arg : List Char) :
    (Build.holding done).resize.push (some arg) = Build.holding (done ++ [arg]) := by
  rw [holding_resize h, Build.push]
  show Build.mk ((Build.holding done).argv.set done.length (some arg)) _ _ = _
  rw [holding_set (by omega), Build.holding]
  simp [Build.holding]

theorem holding_push_none {done : List (List Char)} (h : done.length < 99) :
    (Build.holding done).resize.push none =
      ⟨array done (calloc (100 - (done.length + 1))), done.length + 1, 100⟩ := by
  rw [holding_resize h, Build.push]
  show Build.mk ((Build.holding done).argv.set done.length none) _ _ = _
  rw [holding_set (by omega)]
  rfl

section Loop
variable {realloc : ℕ → Bool} {argList : List Slot} {b : Build}

theorem mem_tests : b ∈ (buildLoop realloc argList b).tests := by
  unfold buildLoop
  split
  · exact List.mem_cons_self
  · exact List.mem_cons_self
  · split_ifs
    · exact List.mem_cons_self
    · split
      · exact List.mem_cons_self
      · exact List.mem_cons_self

theorem buildLoop_of_none (htest : b.argv[b.argc - 1]? = some none) :
    buildLoop realloc argList b = ⟨[b], .ended b argList⟩ := by
  unfold buildLoop
  rw [htest]

theorem buildLoop_of_some {s : List Char} (htest : b.argv[b.argc - 1]? = some (some s))
    (halloc : realloc b.argc = true) (arg : Slot) :
    buildLoop realloc (arg :: argList) b =
      ⟨b :: (buildLoop realloc argList (b.resize.push arg)).tests,
        (buildLoop realloc argList (b.resize.push arg)).built⟩ := by
  rw [buildLoop, htest]
  dsimp only
  rw [halloc, Bool.not_true, Bool.and_false, if_neg Bool.false_ne_true]

end Loop

/-- `argvSize` is the number of slots, and there is a slot for the next argument. -/
def Build.Sized (b : Build) : Prop := b.argvSize = b.argv.length ∧ b.argc < b.argvSize

theorem holding_sized {done : List (List Char)} (h : done.length < 100) :
    (Build.holding done).Sized :=
  ⟨(holding_argv_length h.le).symm, h⟩

theorem buildLoop_last (done : List (List Char)) (arg : List Char) (behind : List Slot)
    (h : done.length < 98) :
    (∀ b ∈ (buildLoop (fun _ => true) (none :: behind) (Build.holding (done ++ [arg]))).tests,
      b.Sized) ∧
    (buildLoop (fun _ => true) (none :: behind) (Build.holding (done ++ [arg]))).built =
      .ended ⟨array (done ++ [arg]) (calloc (98 - done.length)), done.length + 2, 100⟩ behind := by
  have hlength : (done ++ [arg]).length = done.length + 1 := by simp
  have hend : (⟨array (done ++ [arg]) (calloc (98 - done.length)), done.length + 2, 100⟩ :
      Build).argv[done.length + 2 - 1]? = some none := by
    show (array (done ++ [arg]) _)[done.length + 1]? = some none
    rw [array_getElem? hlength.ge, List.getElem?_eq_none hlength.le]
  have hpush : (Build.holding (done ++ [arg])).resize.push none =
      ⟨array (done ++ [arg]) (calloc (98 - done.length)), done.length + 2, 100⟩ := by
    have hrest : 100 - (done.length + 1 + 1) = 98 - done.length := by omega
    rw [holding_push_none (by omega), hlength, hrest]
  rw [buildLoop_of_some (holding_test done arg) rfl, hpush, buildLoop_of_none hend]
  refine ⟨?_, rfl⟩
  intro b hb
  rcases List.mem_cons.mp hb with rfl | hb
  · exact holding_sized (by omega)
  · rw [List.mem_singleton.mp hb]
    constructor
    · show 100 = (array (done ++ [arg]) _).length
      rw [length_array, hlength, calloc, List.length_replicate]
      omega
    · show done.length + 2 < 100
      omega

theorem buildLoop_short (done : List (List Char)) (arg : List Char) (rest : List (List Char))
    (behind : List Slot) (h : done.length + rest.length < 98) :
    (∀ b ∈ (buildLoop (fun _ => true) (array rest behind) (Build.holding (done ++ [arg]))).tests,
      b.Sized) ∧
    (buildLoop (fun _ => true) (array rest behind) (Build.holding (done ++ [arg]))).built =
      .ended ⟨array (done ++ arg :: rest) (calloc (98 - (done.length + rest.length))),
        done.length + rest.length + 2, 100⟩ behind := by
  induction rest generalizing done arg with
  | nil => exact buildLoop_last done arg behind h
  | cons next rest ih =>
    have hlength : (done ++ [arg]).length = done.length + 1 := by simp
    rw [List.length_cons] at h
    obtain ⟨htests, hbuilt⟩ := ih (done ++ [arg]) next (by omega)
    show (∀ b ∈ (buildLoop _ (some next :: array rest behind) _).tests, _) ∧
      (buildLoop _ (some next :: array rest behind) _).built = _
    rw [buildLoop_of_some (holding_test done arg) rfl, holding_push (by omega)]
    constructor
    · intro b hb
      rcases List.mem_cons.mp hb with rfl | hb
      · exact holding_sized (by omega)
      · exact htests b hb
    · rw [hbuilt, hlength, List.append_assoc, List.length_cons, Nat.add_right_comm done.length 1,
        Nat.add_assoc done.length]
      rfl

/-! ## More arguments -/

theorem not_sized_of_resize {done : List (List Char)} (h : done.length = 99) (arg : Slot) :
    ¬ ((Build.holding done).resize.push arg).Sized := by
  have hfull : (Build.holding done).full = true := by
    rw [Build.full, decide_eq_true_eq]
    show done.length + 1 ≥ 100
    omega
  have hargv := holding_argv_length (show done.length ≤ 100 by omega)
  intro hsized
  have hsize := hsized.1
  rw [Build.push, Build.resize, if_pos hfull] at hsize
  have hslots : 200 = ((realloc (Build.holding done).argv 8).set done.length arg).length := hsize
  rw [List.length_set, realloc, List.length_append, List.length_take, calloc,
    List.length_replicate, hargv] at hslots
  omega

theorem array_eq_cons (args : List (List Char)) (behind : List Slot) :
    array args behind = args.head? :: (array args behind).tail := by
  cases args <;> rfl

/-- The vector is resized when there are 99 arguments in it. -/
theorem buildLoop_resized {done : List (List Char)} (h : done.length = 98) (arg : List Char)
    (rest : List (List Char)) (behind : List Slot) :
    ∃ b ∈ (buildLoop (fun _ => true) (array rest behind) (Build.holding (done ++ [arg]))).tests,
      ¬ b.Sized := by
  refine ⟨(Build.holding (done ++ [arg])).resize.push rest.head?, ?_, ?_⟩
  · rw [array_eq_cons, buildLoop_of_some (holding_test done arg) rfl]
    exact List.mem_cons_of_mem _ mem_tests
  · apply not_sized_of_resize
    rw [List.length_append, List.length_singleton, h]

theorem buildLoop_long (done : List (List Char)) (arg : List Char) (rest : List (List Char))
    (behind : List Slot) (hdone : done.length ≤ 98) (h : 98 ≤ done.length + rest.length) :
    ∃ b ∈ (buildLoop (fun _ => true) (array rest behind) (Build.holding (done ++ [arg]))).tests,
      ¬ b.Sized := by
  induction rest generalizing done arg with
  | nil => exact buildLoop_resized (le_antisymm hdone h) arg [] behind
  | cons next rest ih =>
    rcases hdone.eq_or_lt with hfull | hlt
    · exact buildLoop_resized hfull arg (next :: rest) behind
    · have hlength : (done ++ [arg]).length = done.length + 1 := by simp
      rw [List.length_cons] at h
      obtain ⟨b, hb, hsized⟩ := ih (done ++ [arg]) next (by omega) (by omega)
      refine ⟨b, ?_, hsized⟩
      show b ∈ (buildLoop _ (some next :: array rest behind) _).tests
      rw [buildLoop_of_some (holding_test done arg) rfl, holding_push (by omega)]
      exact List.mem_cons_of_mem _ hb

theorem buildLoop_args {args : List (List Char)} (h : args.length ≤ 98) (behind : List Slot) :
    (∀ b ∈ (buildLoop (fun _ => true) (array args behind).tail (Build.start args.head?)).tests,
      b.Sized) ∧
    (buildLoop (fun _ => true) (array args behind).tail (Build.start args.head?)).built =
      .ended ⟨array args (calloc (99 - args.length)), args.length + 1, 100⟩ behind := by
  cases args with
  | nil =>
    have htest : (Build.start none).argv[(Build.start none).argc - 1]? = some none := rfl
    show (∀ b ∈ (buildLoop _ behind (Build.start none)).tests, _) ∧
      (buildLoop _ behind (Build.start none)).built = _
    rw [buildLoop_of_none htest]
    refine ⟨?_, rfl⟩
    intro b hb
    rw [List.mem_singleton.mp hb]
    exact ⟨rfl, by decide⟩
  | cons arg rest =>
    rw [List.length_cons] at h ⊢
    obtain ⟨htests, hbuilt⟩ := buildLoop_short [] arg rest behind (by rw [List.length_nil]; omega)
    refine ⟨htests, hbuilt.trans ?_⟩
    rw [List.length_nil, Nat.zero_add, show 99 - (rest.length + 1) = 98 - rest.length by omega]
    rfl

/-- With at most 98 arguments the search is given them and the environment. -/
theorem execlp_eq_tryExec (filename : List Char) {args : List (List Char)} (h : args.length ≤ 98)
    (behind environ : List Slot) (file shell : ℕ → Option Errno) :
    execlp filename args.head? (array args behind).tail environ ⟨true, fun _ => true, true⟩
        file shell =
      some (tryExec filename (args.length + 1) (array args (calloc (99 - args.length)))
        (array (entries environ) []) file shell (getenv environ "PATH".toList)) := by
  rw [execlp, if_pos rfl, (buildLoop_args h behind).2, copyEnviron_eq]
  rfl

/-- The vector is given the size of one pointer where it should grow. -/
theorem execlp_argv_intact_iff (filename : List Char) (args : List (List Char))
    (behind environ : List Slot) (file shell : ℕ → Option Errno) :
    ((∀ b ∈ (buildLoop (fun _ => true) (array args behind).tail (Build.start args.head?)).tests,
        b.argvSize = b.argv.length ∧ b.argc < b.argvSize) ∧
      (∃ b, (buildLoop (fun _ => true) (array args behind).tail (Build.start args.head?)).built =
        .ended b behind) ∧
      ∃ r, execlp filename args.head? (array args behind).tail environ ⟨true, fun _ => true, true⟩
          file shell = some r ∧
        ∀ a ∈ r.attempts, ∃ unused, a.argv = array args unused) ↔
    args.length ≤ 98 := by
  constructor
  · rintro ⟨htests, -⟩
    by_contra hlong
    obtain ⟨arg, rest, rfl⟩ := List.exists_cons_of_ne_nil
      (List.ne_nil_of_length_pos (show 0 < args.length by omega))
    rw [List.length_cons] at hlong
    obtain ⟨b, hb, hsized⟩ := buildLoop_long [] arg rest behind (Nat.zero_le _)
      (by rw [List.length_nil]; omega)
    exact hsized (htests b hb)
  · intro h
    obtain ⟨htests, hbuilt⟩ := buildLoop_args h behind
    refine ⟨htests, ⟨_, hbuilt⟩, _, execlp_eq_tryExec filename h behind environ file shell, ?_⟩
    intro a ha
    obtain ⟨j, pathname, size, rfl, -⟩ := tryExec_mem _ _ _ _ ha
    exact ⟨_, congrArg Attempt.argv (attempt_fst j pathname size)⟩

/-- 99 arguments: the last slot that is tested is not there. -/
theorem execlp_argv_lost :
    (∃ b ∈ (buildLoop (fun _ => true) (array (List.replicate 99 ['x']) []).tail
        (Build.start (some ['x']))).tests, b.argvSize = 200 ∧ b.argv.length = 1 ∧ b.argc = 100) ∧
    execlp "ls".toList (some ['x']) (array (List.replicate 99 ['x']) []).tail [none]
      ⟨true, fun _ => true, true⟩ (fun _ => some .ENOMEM) (fun _ => some .ENOMEM) = none := by
  decide +kernel

end Tlpi.Procexec
