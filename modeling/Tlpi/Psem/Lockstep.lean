import Tlpi.Lib.Machine
import Tlpi.Lib.Progress
import Mathlib.Tactic

/-! `psem/psem_tty_lockstep_init.c` and `psem/psem_tty_lockstep_second.c`: two programs that take
turns at the terminal, each with a semaphore that the other one posts.

The programs are started independently of each other, so that the second may look for the
semaphores before the first has created them, or after it has removed them. At the start there are
none of these names. -/

namespace Tlpi.Psem.Lockstep
open Lib

/-- In round `j` of the loop that both programs have. -/
inductive Loop
  | wait (j : ℕ)
  | print (j : ℕ)
  | post (j : ℕ)
  deriving DecidableEq

inductive InitPc
  | unlink1
  | unlink2
  | open1
  | open2
  | loop (pc : Loop)
  | cleanup1
  | cleanup2
  | exited
  /-- A `sem_open()` with `O_EXCL` found the name in use. -/
  | failed
  deriving DecidableEq

inductive SecondPc
  | open1
  | open2
  | loop (pc : Loop)
  | exited
  | failed
  deriving DecidableEq

inductive Line
  | aaaa (j : ℕ)
  | bbbb (j : ℕ)
  deriving DecidableEq

structure State where
  init : InitPc
  second : SecondPc
  /-- The names that exist. -/
  initName : Bool
  secondName : Bool
  initSem : ℕ
  secondSem : ℕ
  output : List Line

inductive Act
  | init
  | second

def initStep (nloops : ℕ) (s : State) : Option State :=
  match s.init with
  | .unlink1 => some { s with init := .unlink2, initName := false }
  | .unlink2 => some { s with init := .open1, secondName := false }
  | .open1 =>
    if s.initName then some { s with init := .failed }
    else some { s with init := .open2, initName := true, initSem := 0 }
  | .open2 =>
    if s.secondName then some { s with init := .failed }
    else some { s with init := .loop (.wait 0), secondName := true, secondSem := 1 }
  | .loop (.wait j) =>
    if j < nloops then
      if s.initSem = 0 then none
      else some { s with init := .loop (.print j), initSem := s.initSem - 1 }
    else some { s with init := .cleanup1 }
  | .loop (.print j) =>
    some { s with init := .loop (.post j), output := s.output ++ [.aaaa j] }
  | .loop (.post j) =>
    some { s with init := .loop (.wait (j + 1)), secondSem := s.secondSem + 1 }
  | .cleanup1 => some { s with init := .cleanup2, initName := false }
  | .cleanup2 => some { s with init := .exited, secondName := false }
  | .exited | .failed => none

def secondStep (nloops : ℕ) (s : State) : Option State :=
  match s.second with
  | .open1 =>
    if s.initName then some { s with second := .open2 } else some { s with second := .failed }
  | .open2 =>
    if s.secondName then some { s with second := .loop (.wait 0) }
    else some { s with second := .failed }
  | .loop (.wait j) =>
    if j < nloops then
      if s.secondSem = 0 then none
      else some { s with second := .loop (.print j), secondSem := s.secondSem - 1 }
    else some { s with second := .exited }
  | .loop (.print j) =>
    some { s with second := .loop (.post j), output := s.output ++ [.bbbb j] }
  | .loop (.post j) =>
    some { s with second := .loop (.wait (j + 1)), initSem := s.initSem + 1 }
  | .exited | .failed => none

def step (n m : ℕ) (s : State) : Act → Option State
  | .init => initStep n s
  | .second => secondStep m s

def start : State := ⟨.unlink1, .open1, false, false, 0, 0, []⟩

/-- The programs with `n` and with `m` as their last argument. -/
def machine (n m : ℕ) : Machine State Act where
  init s := s = start
  step := step n m

/-- Line `k` of the terminal: the second program begins. -/
def line (k : ℕ) : Line := if k % 2 = 0 then .bbbb (k / 2) else .aaaa (k / 2)

/-- The first `k` lines. -/
def alternating (k : ℕ) : List Line := (List.range k).map line

example : alternating 3 = [.bbbb 0, .aaaa 0, .bbbb 1] := by decide

/-! ## The turns -/

namespace Loop

def waited : Loop → ℕ
  | wait j => j
  | print j | post j => j + 1

def printed : Loop → ℕ
  | wait j | print j => j
  | post j => j + 1

def posted : Loop → ℕ
  | wait j | print j | post j => j

@[simp] theorem waited_wait (j : ℕ) : (wait j).waited = j := rfl

@[simp] theorem waited_print (j : ℕ) : (print j).waited = j + 1 := rfl

@[simp] theorem waited_post (j : ℕ) : (post j).waited = j + 1 := rfl

@[simp] theorem printed_wait (j : ℕ) : (wait j).printed = j := rfl

@[simp] theorem printed_print (j : ℕ) : (print j).printed = j := rfl

@[simp] theorem printed_post (j : ℕ) : (post j).printed = j + 1 := rfl

@[simp] theorem posted_wait (j : ℕ) : (wait j).posted = j := rfl

@[simp] theorem posted_print (j : ℕ) : (print j).posted = j := rfl

@[simp] theorem posted_post (j : ℕ) : (post j).posted = j := rfl

theorem posted_le_printed (pc : Loop) : pc.posted ≤ pc.printed ∧ pc.printed ≤ pc.waited := by
  cases pc <;> simp

/-- Not more than `n` rounds. -/
def Within (n : ℕ) : Loop → Prop
  | wait j => j ≤ n
  | print j | post j => j < n

end Loop

/-- Before the loop nothing has been done of it, and behind the loop all of it. -/
def InitPc.position (n : ℕ) : InitPc → Loop
  | loop pc => pc
  | cleanup1 | cleanup2 | exited => .wait n
  | _ => .wait 0

def SecondPc.position (m : ℕ) : SecondPc → Loop
  | loop pc => pc
  | exited => .wait m
  | _ => .wait 0

/-- The first turn is there when both semaphores have been created. -/
def InitPc.created : InitPc → ℕ
  | loop _ | cleanup1 | cleanup2 | exited => 1
  | _ => 0

/-- The second program has found both semaphores. -/
def SecondPc.opened : SecondPc → Bool
  | loop _ | exited => true
  | _ => false

/-- A turn is in one of the semaphores or with the program that has taken it there. The first of
`created` turns goes to the second program, at `B`. -/
structure Turns (n m created : ℕ) (A B : Loop) (initSem secondSem : ℕ) : Prop where
  init_sem : initSem + A.waited = B.posted
  second_sem : secondSem + B.waited = created + A.posted
  init_within : A.Within n
  second_within : B.Within m

structure Inv (n m : ℕ) (s : State) : Prop where
  turns : Turns n m s.init.created (s.init.position n) (s.second.position m) s.initSem s.secondSem
  output : s.output = alternating ((s.init.position n).printed + (s.second.position m).printed)
  opened : s.second.opened = true → s.init.created = 1
  secondName : s.secondName = true → s.init.created = 1
  initName : s.init = .unlink1 ∨ s.init = .unlink2 ∨ s.init = .open1 → s.initName = false
  not_failed : s.init ≠ .failed

theorem alternating_succ (k : ℕ) : alternating (k + 1) = alternating k ++ [line k] := by
  simp [alternating, List.range_succ]

theorem line_two_mul (k : ℕ) : line (2 * k) = .bbbb k := by
  simp [line]

theorem line_two_mul_add_one (k : ℕ) : line (2 * k + 1) = .aaaa k := by
  have hmod : (2 * k + 1) % 2 = 1 := by omega
  have hdiv : (2 * k + 1) / 2 = k := by omega
  simp [line, hmod, hdiv]

theorem alternating_snoc_bbbb (j : ℕ) :
    alternating (j + j) ++ [.bbbb j] = alternating (j + (j + 1)) := by
  rw [← add_assoc, alternating_succ, ← two_mul, line_two_mul]

theorem alternating_snoc_aaaa (j : ℕ) :
    alternating (j + (j + 1)) ++ [.aaaa j] = alternating (j + 1 + (j + 1)) := by
  rw [add_right_comm, ← add_assoc, alternating_succ (j + j + 1), ← two_mul, line_two_mul_add_one]

namespace Turns
variable {n m c j x y : ℕ} {A B : Loop}

theorem initWait (h : Turns n m c (.wait j) B x y) (hj : j < n) (hx : x ≠ 0) :
    Turns n m c (.print j) B (x - 1) y where
  init_sem := by
    have := h.init_sem
    simp at this ⊢
    omega
  second_sem := h.second_sem
  init_within := hj
  second_within := h.second_within

theorem initPost (h : Turns n m c (.post j) B x y) :
    Turns n m c (.wait (j + 1)) B x (y + 1) where
  init_sem := h.init_sem
  second_sem := by
    have := h.second_sem
    simp at this ⊢
    omega
  init_within := h.init_within
  second_within := h.second_within

theorem secondWait (h : Turns n m c A (.wait j) x y) (hj : j < m) (hy : y ≠ 0) :
    Turns n m c A (.print j) x (y - 1) where
  init_sem := h.init_sem
  second_sem := by
    have := h.second_sem
    simp at this ⊢
    omega
  init_within := h.init_within
  second_within := hj

theorem secondPost (h : Turns n m c A (.post j) x y) :
    Turns n m c A (.wait (j + 1)) (x + 1) y where
  init_sem := by
    have := h.init_sem
    simp at this ⊢
    omega
  second_sem := h.second_sem
  init_within := h.init_within
  second_within := h.second_within

/-- When the first program prints, the second is one line ahead. -/
theorem printed_second (h : Turns n m 1 (.print j) B x y) : B.printed = j + 1 := by
  have h1 := h.init_sem
  have h2 := h.second_sem
  have hB := B.posted_le_printed
  simp at h1 h2
  omega

/-- When the second program prints, neither is ahead. -/
theorem printed_init (h : Turns n m 1 A (.print j) x y) : A.printed = j := by
  have h1 := h.init_sem
  have h2 := h.second_sem
  have hA := A.posted_le_printed
  simp at h1 h2
  omega

end Turns

variable {n m : ℕ} {s s' : State}

/-- As long as a semaphore is missing, the loops have not begun. -/
structure Setup (s : State) : Prop where
  not_opened : s.second.opened = false
  secondName : s.secondName = false
  initSem : s.initSem = 0
  secondSem : s.secondSem = 0
  output : s.output = []

theorem SecondPc.position_of_not_opened {pc : SecondPc} (h : pc.opened = false) :
    pc.position m = .wait 0 := by
  cases pc with
  | loop | exited => cases h
  | open1 | open2 | failed => rfl

theorem InitPc.position_of_not_created {pc : InitPc} (h : pc.created = 0) :
    pc.position n = .wait 0 := by
  cases pc with
  | loop | cleanup1 | cleanup2 | exited => cases h
  | unlink1 | unlink2 | open1 | open2 | failed => rfl

theorem Inv.setup (h : Inv n m s) (hc : s.init.created = 0) : Setup s := by
  have hopened : s.second.opened = false :=
    Bool.eq_false_iff.mpr fun ho => by simp [h.opened ho] at hc
  have ht := h.turns
  have ho := h.output
  rw [hc, InitPc.position_of_not_created hc, SecondPc.position_of_not_opened hopened] at ht
  rw [InitPc.position_of_not_created hc, SecondPc.position_of_not_opened hopened] at ho
  exact {
    not_opened := hopened
    secondName := Bool.eq_false_iff.mpr fun hn => by simp [h.secondName hn] at hc
    initSem := ht.init_sem
    secondSem := ht.second_sem
    output := ho }

theorem Setup.inv (h : Setup s) (hc : s.init.created = 0) (hpc : s.init ≠ .failed)
    (hname : s.init = .unlink1 ∨ s.init = .unlink2 ∨ s.init = .open1 → s.initName = false) :
    Inv n m s where
  turns := by
    rw [hc, InitPc.position_of_not_created hc, SecondPc.position_of_not_opened h.not_opened,
      h.initSem, h.secondSem]
    exact ⟨rfl, rfl, Nat.zero_le n, Nat.zero_le m⟩
  output := by
    rw [InitPc.position_of_not_created hc, SecondPc.position_of_not_opened h.not_opened, h.output]
    rfl
  opened ho := by simp [h.not_opened] at ho
  secondName hn := by simp [h.secondName] at hn
  initName := hname
  not_failed := hpc

/-- And once both are there, the names do not matter any more to the first program. -/
theorem inv_of_created (hc : s.init.created = 1)
    (ht : Turns n m 1 (s.init.position n) (s.second.position m) s.initSem s.secondSem)
    (ho : s.output = alternating ((s.init.position n).printed + (s.second.position m).printed)) :
    Inv n m s where
  turns := hc.symm ▸ ht
  output := ho
  opened _ := hc
  secondName _ := hc
  initName h := by rcases h with h | h | h <;> simp [h, InitPc.created] at hc
  not_failed h := by simp [h, InitPc.created] at hc

theorem inv_start : Inv n m start :=
  Setup.inv ⟨rfl, rfl, rfl, rfl, rfl⟩ rfl (by simp [start]) fun _ => rfl

theorem inv_init (h : Inv n m s) (hs : initStep n s = some s') : Inv n m s' := by
  have ht := h.turns
  have ho := h.output
  rcases hpc : s.init with _ | _ | _ | _ | (j | j | j) | _ | _ | _ | _ <;>
    simp only [initStep, hpc] at hs <;> rw [hpc] at ht ho
  case unlink1 =>
    cases hs
    have hset := h.setup (by rw [hpc]; rfl)
    exact Setup.inv { hset with } rfl (by simp) fun _ => rfl
  case unlink2 =>
    cases hs
    have hset := h.setup (by rw [hpc]; rfl)
    exact Setup.inv { hset with secondName := rfl } rfl (by simp) fun _ =>
      h.initName (by simp [hpc])
  case open1 =>
    rw [h.initName (by simp [hpc])] at hs
    cases hs
    have hset := h.setup (by rw [hpc]; rfl)
    exact Setup.inv { hset with initSem := rfl } rfl (by simp) (by simp)
  case open2 =>
    have hset := h.setup (by rw [hpc]; rfl)
    rw [hset.secondName] at hs
    cases hs
    refine inv_of_created rfl ?_ ?_
    · rw [SecondPc.position_of_not_opened hset.not_opened, hset.initSem]
      exact ⟨rfl, rfl, Nat.zero_le n, Nat.zero_le m⟩
    · rw [SecondPc.position_of_not_opened hset.not_opened, hset.output]
      rfl
  case loop.wait =>
    split_ifs at hs with hj hsem
    · cases hs
      exact inv_of_created rfl (ht.initWait hj hsem) ho
    · cases hs
      have hjn : j = n := le_antisymm ht.init_within (not_lt.mp hj)
      subst hjn
      exact inv_of_created rfl ht ho
  case loop.print =>
    cases hs
    refine inv_of_created rfl ⟨ht.init_sem, ht.second_sem, ht.init_within, ht.second_within⟩ ?_
    have hB := ht.printed_second
    simp only [InitPc.position, Loop.printed_print, Loop.printed_post, hB] at ho ⊢
    rw [ho, alternating_snoc_aaaa]
  case loop.post =>
    cases hs
    exact inv_of_created rfl ht.initPost ho
  case cleanup1 | cleanup2 =>
    cases hs
    exact inv_of_created rfl ht ho
  case exited | failed => cases hs

theorem inv_second (h : Inv n m s) (hs : secondStep m s = some s') : Inv n m s' := by
  have ht := h.turns
  have ho := h.output
  have hopened := h.opened
  rcases hpc : s.second with _ | _ | (j | j | j) | _ | _ <;>
    simp only [secondStep, hpc] at hs <;> rw [hpc] at ht ho hopened
  case open1 =>
    split_ifs at hs <;> cases hs
    · exact { h with turns := ht, output := ho, opened := hopened }
    · exact { h with turns := ht, output := ho, opened := hopened }
  case open2 =>
    split_ifs at hs with hname <;> cases hs
    · exact { h with turns := ht, output := ho, opened := fun _ => h.secondName hname }
    · exact { h with turns := ht, output := ho, opened := hopened }
  case loop.wait =>
    split_ifs at hs with hj hsem
    · cases hs
      exact { h with turns := ht.secondWait hj hsem, output := ho, opened := hopened }
    · cases hs
      have hjm : j = m := le_antisymm ht.second_within (not_lt.mp hj)
      subst hjm
      exact { h with turns := ht, output := ho, opened := hopened }
  case loop.print =>
    cases hs
    rw [hopened rfl] at ht
    have hA := ht.printed_init
    refine { h with
      turns := hopened rfl ▸ ⟨ht.init_sem, ht.second_sem, ht.init_within, ht.second_within⟩
      output := ?_
      opened := hopened }
    simp only [SecondPc.position, Loop.printed_print, Loop.printed_post, hA] at ho ⊢
    rw [ho, alternating_snoc_bbbb]
  case loop.post =>
    cases hs
    exact { h with turns := ht.secondPost, output := ho, opened := hopened }
  case exited | failed => cases hs

theorem inv_step {a : Act} (h : Inv n m s) (hs : step n m s a = some s') : Inv n m s' := by
  cases a with
  | init => exact inv_init h hs
  | second => exact inv_second h hs

theorem inv_of_reachable (hs : (machine n m).Reachable s) : Inv n m s := by
  refine hs.invariant (I := Inv n m) ?_ fun _ _ _ h ha => inv_step h ha
  rintro _ rfl
  exact inv_start

/-! ## The end of the programs -/

def Loop.rank (n : ℕ) : Loop → ℕ
  | wait j => 3 * (n - j) + 3
  | print j => 3 * (n - j) + 2
  | post j => 3 * (n - j) + 1

def InitPc.rank (n : ℕ) : InitPc → ℕ
  | unlink1 => 3 * n + 7
  | unlink2 => 3 * n + 6
  | open1 => 3 * n + 5
  | open2 => 3 * n + 4
  | loop pc => pc.rank n
  | cleanup1 => 2
  | cleanup2 => 1
  | exited | failed => 0

def SecondPc.rank (m : ℕ) : SecondPc → ℕ
  | open1 => 3 * m + 5
  | open2 => 3 * m + 4
  | loop pc => pc.rank m
  | exited | failed => 0

def weight (n m : ℕ) (s : State) : ℕ := s.init.rank n + s.second.rank m

theorem rank_init (h : Inv n m s) (hs : initStep n s = some s') :
    s'.init.rank n < s.init.rank n ∧ s'.second = s.second := by
  have hw := h.turns.init_within
  rcases hpc : s.init with _ | _ | _ | _ | (j | j | j) | _ | _ | _ | _ <;>
    simp only [initStep, hpc] at hs <;> rw [hpc] at hw
  case unlink1 | unlink2 | loop.print | cleanup1 | cleanup2 =>
    cases hs
    exact ⟨by simp [InitPc.rank, Loop.rank], rfl⟩
  case open1 | open2 | loop.wait =>
    split_ifs at hs <;> cases hs <;> exact ⟨by simp [InitPc.rank, Loop.rank], rfl⟩
  case loop.post =>
    cases hs
    have hj : j < n := hw
    refine ⟨?_, rfl⟩
    simp only [InitPc.rank, Loop.rank]
    omega
  case exited | failed => cases hs

theorem rank_second (h : Inv n m s) (hs : secondStep m s = some s') :
    s'.second.rank m < s.second.rank m ∧ s'.init = s.init ∧ s'.initName = s.initName ∧
      s'.secondName = s.secondName := by
  have hw := h.turns.second_within
  rcases hpc : s.second with _ | _ | (j | j | j) | _ | _ <;>
    simp only [secondStep, hpc] at hs <;> rw [hpc] at hw
  case open1 | open2 | loop.wait =>
    split_ifs at hs <;> cases hs <;> exact ⟨by simp [SecondPc.rank, Loop.rank], rfl, rfl, rfl⟩
  case loop.print =>
    cases hs
    exact ⟨by simp [SecondPc.rank, Loop.rank], rfl, rfl, rfl⟩
  case loop.post =>
    cases hs
    have hj : j < m := hw
    refine ⟨?_, rfl, rfl, rfl⟩
    simp only [SecondPc.rank, Loop.rank]
    omega
  case exited | failed => cases hs

theorem weight_step {a : Act} (h : Inv n m s) (hs : step n m s a = some s') :
    weight n m s' < weight n m s := by
  rw [weight, weight]
  cases a with
  | init =>
    obtain ⟨hlt, heq⟩ := rank_init h hs
    rw [heq]
    omega
  | second =>
    obtain ⟨hlt, heq, -, -⟩ := rank_second h hs
    rw [heq]
    omega

theorem init_of_stuck (h : Inv n m s) (hs : initStep n s = none) :
    s.init = .exited ∨ ∃ j < n, s.init = .loop (.wait j) ∧ s.initSem = 0 := by
  rcases hpc : s.init with _ | _ | _ | _ | (j | j | j) | _ | _ | _ | _ <;>
    simp only [initStep, hpc] at hs
  case open1 | open2 => split_ifs at hs
  case loop.wait =>
    split_ifs at hs with hj hsem
    exact .inr ⟨j, hj, rfl, hsem⟩
  case exited => exact .inl rfl
  case failed => exact absurd hpc h.not_failed
  all_goals cases hs

theorem second_of_stuck (hs : secondStep m s = none) :
    s.second = .failed ∨ s.second = .exited ∨
      ∃ j < m, s.second = .loop (.wait j) ∧ s.secondSem = 0 := by
  rcases hpc : s.second with _ | _ | (j | j | j) | _ | _ <;> simp only [secondStep, hpc] at hs
  case open1 | open2 => split_ifs at hs
  case loop.wait =>
    split_ifs at hs with hj hsem
    exact .inr (.inr ⟨j, hj, rfl, hsem⟩)
  case exited => exact .inr (.inl rfl)
  case failed => exact .inl rfl
  all_goals cases hs

/-- A second program that did not find the semaphores leaves the first one waiting for its first
turn. Otherwise each has as many turns as the other one gives to it. -/
def Done (n m : ℕ) (s : State) : Prop :=
  (s.second = .failed ∧ s.output = [] ∧ (s.init = .exited ↔ n = 0)) ∨
    (s.output = alternating (min n m + min m (n + 1)) ∧ (s.init = .exited ↔ n ≤ m) ∧
      (s.second = .exited ↔ m ≤ n + 1))

theorem done_of_failed (h : Inv n m s) (hinit : initStep n s = none) (hf : s.second = .failed) :
    Done n m s := by
  have ht := h.turns.init_sem
  have ho := h.output
  rw [hf] at ht ho
  rcases init_of_stuck h hinit with hi | ⟨i, hi, hpc, -⟩
  · rw [hi] at ht ho
    obtain ⟨-, rfl⟩ : s.initSem = 0 ∧ n = 0 := Nat.add_eq_zero_iff.mp ht
    exact .inl ⟨hf, ho, iff_of_true hi rfl⟩
  · rw [hpc] at ht ho
    obtain ⟨-, rfl⟩ : s.initSem = 0 ∧ i = 0 := Nat.add_eq_zero_iff.mp ht
    exact .inl ⟨hf, ho, iff_of_false (by simp [hpc]) hi.ne'⟩

theorem done_of_opened (h : Inv n m s) (hinit : initStep n s = none)
    (hsecond : s.second = .exited ∨ ∃ j < m, s.second = .loop (.wait j) ∧ s.secondSem = 0) :
    Done n m s := by
  have ht := h.turns
  have ho := h.output
  have hc : s.init.created = 1 := by
    refine h.opened ?_
    rcases hsecond with hse | ⟨j, -, hse, -⟩ <;> rw [hse] <;> rfl
  rw [hc] at ht
  have h1 := ht.init_sem
  have h2 := ht.second_sem
  rcases init_of_stuck h hinit with hi | ⟨i, hlt, hi, hsem⟩ <;>
    rcases hsecond with hse | ⟨j, hlt', hse, hsem'⟩ <;> rw [hi, hse] at h1 h2 ho <;>
    simp only [InitPc.position, SecondPc.position, Loop.waited_wait, Loop.posted_wait,
      Loop.printed_wait] at h1 h2 ho
  · refine .inr ⟨?_, iff_of_true hi (by omega), iff_of_true hse (by omega)⟩
    rw [ho, min_eq_left (by omega), min_eq_left (by omega)]
  · -- the second program would have liked another turn
    refine .inr ⟨?_, iff_of_true hi (by omega), iff_of_false (by simp [hse]) (by omega)⟩
    rw [ho, min_eq_left (by omega), min_eq_right (by omega)]
    congr 2
    omega
  · refine .inr ⟨?_, iff_of_false (by simp [hi]) (by omega), iff_of_true hse (by omega)⟩
    rw [ho, min_eq_right (by omega), min_eq_left (by omega)]
    congr 2
    omega
  · -- the turn is somewhere
    omega

theorem done_of_stuck (h : Inv n m s) (hs : (machine n m).Stuck s) : Done n m s := by
  rcases second_of_stuck (hs .second) with hf | hopened
  · exact done_of_failed h (hs .init) hf
  · exact done_of_opened h (hs .init) hopened

/-! ## A second program that is started in time -/

/-- It is started when the semaphores are there. -/
def InTime (s : State) (a : Act) : Prop := a = .second → s.init.created = 1

structure Found (n m : ℕ) (s : State) : Prop where
  inv : Inv n m s
  initName : s.init = .open2 → s.initName = true
  names : s.init.created = 1 →
    (s.initName = true ∧ s.secondName = true) ∨ s.init = .cleanup2 ∨ s.init = .exited
  found : s.second ≠ .failed

/-- The names are not removed before the second program has opened both. -/
theorem Found.names_of_opening (h : Found n m s) (hn : 0 < n) (hc : s.init.created = 1)
    (ho : s.second.opened = false) : s.initName = true ∧ s.secondName = true := by
  refine (h.names hc).resolve_right fun hpc => ?_
  have ht := h.inv.turns.init_sem
  rw [SecondPc.position_of_not_opened ho] at ht
  rcases hpc with hpc | hpc <;> rw [hpc] at ht <;> simp [InitPc.position] at ht <;> omega

/-- The names in the steps of the first program. -/
theorem names_init (h : Found n m s) (hs : initStep n s = some s') :
    (s'.init = .open2 → s'.initName = true) ∧
      (s'.init.created = 1 →
        (s'.initName = true ∧ s'.secondName = true) ∨ s'.init = .cleanup2 ∨ s'.init = .exited) := by
  rcases hpc : s.init with _ | _ | _ | _ | (j | j | j) | _ | _ | _ | _ <;>
    simp only [initStep, hpc] at hs
  case unlink1 | unlink2 =>
    cases hs
    exact ⟨by simp, by simp [InitPc.created]⟩
  case open1 =>
    split_ifs at hs <;> cases hs
    · exact ⟨by simp, by simp [InitPc.created]⟩
    · exact ⟨fun _ => rfl, by simp [InitPc.created]⟩
  case open2 =>
    split_ifs at hs <;> cases hs
    · exact ⟨by simp, by simp [InitPc.created]⟩
    · exact ⟨by simp, fun _ => .inl ⟨h.initName hpc, rfl⟩⟩
  case cleanup1 | cleanup2 =>
    cases hs
    exact ⟨by simp, by simp⟩
  case exited | failed => cases hs
  all_goals
    -- in the loop the names stay
    have hnames := (h.names (by rw [hpc]; rfl)).resolve_right (by simp [hpc])
    first | cases hs | (split_ifs at hs <;> cases hs)
    all_goals exact ⟨by simp, fun _ => .inl hnames⟩

theorem second_ne_failed (hn : 0 < n) (h : Found n m s) (hc : s.init.created = 1)
    (hs : secondStep m s = some s') : s'.second ≠ .failed := by
  rcases hpc : s.second with _ | _ | (j | j | j) | _ | _ <;> simp only [secondStep, hpc] at hs
  case open1 =>
    rw [if_pos (h.names_of_opening hn hc (by rw [hpc]; rfl)).1] at hs
    cases hs
    simp
  case open2 =>
    rw [if_pos (h.names_of_opening hn hc (by rw [hpc]; rfl)).2] at hs
    cases hs
    simp
  case loop.wait => split_ifs at hs <;> cases hs <;> simp
  all_goals
    cases hs
    try simp

theorem found_step {a : Act} (hn : 0 < n) (h : Found n m s) (hg : InTime s a)
    (hs : step n m s a = some s') : Found n m s' := by
  have hinv := inv_step h.inv hs
  cases a with
  | init =>
    obtain ⟨hfirst, hnames⟩ := names_init h hs
    exact ⟨hinv, hfirst, hnames, (rank_init h.inv hs).2 ▸ h.found⟩
  | second =>
    obtain ⟨-, hinit, hname, hname'⟩ := rank_second h.inv hs
    refine ⟨hinv, ?_, ?_, second_ne_failed hn h (hg rfl) hs⟩
    · rw [hinit, hname]
      exact h.initName
    · rw [hinit, hname, hname']
      exact h.names

theorem found_of_reachable (hn : 0 < n) (hs : (machine n m).ReachableUnder InTime s) :
    Found n m s := by
  refine hs.invariant (I := Found n m) ?_ fun _ _ _ h hg ha => found_step hn h hg ha
  rintro _ rfl
  exact ⟨inv_start, by simp [start], by simp [start, InitPc.created], by simp [start]⟩

end Tlpi.Psem.Lockstep
