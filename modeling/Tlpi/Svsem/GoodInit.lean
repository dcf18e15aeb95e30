import Tlpi.Common.GetNum
import Tlpi.Lib.Machine

/-! Any number of processes that run `svsem/svsem_good_init.c`. A step is one system call of one
process, with what the process does on its own up to the next one. The set is never deleted. -/

namespace Tlpi.Svsem.GoodInit
open Lib Common

def MAX_TRIES : ℕ := 10

/-- The largest value of a semaphore. -/
def SEMVMX : ℤ := 32767

structure SemidDs where
  semval : ℤ
  sem_otime : ℤ

inductive Pc
  | start
  | semget1
  | setval
  /-- The `semop()` of the creator that only changes `sem_otime`. -/
  | dummySemop
  | semget2
  /-- IPC_STAT in turn `j` of the loop. -/
  | stat (j : ℕ)
  | semop (sem_op : ℤ)
  | success (sem_op : ℤ)
  /-- `usageErr()`, `errExit()`, `fatal()` or the failure of `getInt()`. -/
  | gaveUp
  deriving DecidableEq

structure State (P : Type*) where
  sem : Option SemidDs
  proc : P → Pc
  /-- The SETVAL of the creator has been executed. -/
  isInit : Bool
  /-- The operations that have been applied, each with the process that made it. -/
  applied : List (P × ℤ)

inductive Act (P : Type*)
  /-- The next step of a process that is not one of the following. -/
  | run (p : P)
  /-- `semget()` creates the set, whose semaphore has the value `val`. -/
  | create (p : P) (val : ℤ)
  /-- `semop()` is applied at the time `t`. -/
  | semop (p : P) (t : ℤ)
  /-- The system call fails. -/
  | fail (p : P)

variable {P : Type*}

def initial : State P where
  sem := none
  proc := fun _ => .start
  isInit := false
  applied := []

/-- `sops[0].sem_op = getInt(argv[1], 0, "sem-op")`; the field is a `short`. -/
def afterInit (arg : List Char) : Pc :=
  match getInt (some arg) 0 (some "sem-op") with
  | .ok v => .semop (v.bmod (2 ^ 16))
  | .error _ => .gaveUp

def afterStat (arg : List Char) (j : ℕ) (sem_otime : ℤ) : Pc :=
  if sem_otime ≠ 0 then afterInit arg
  else if j + 1 < MAX_TRIES then .stat (j + 1)
  else .gaveUp

/-- The value after `semop()`, and `none` while it blocks or when it fails with ERANGE. -/
def semopValue (val sem_op : ℤ) : Option ℤ :=
  if sem_op > 0 then if val + sem_op ≤ SEMVMX then some (val + sem_op) else none
  else if sem_op < 0 then if 0 ≤ val + sem_op then some (val + sem_op) else none
  else if val = 0 then some val else none

section Model
variable [DecidableEq P]

def move (s : State P) (p : P) (pc : Pc) : State P := { s with proc := Function.update s.proc p pc }

-- `argv` is the command line without `argv[0]`
def run (argv : P → List (List Char)) (s : State P) (p : P) : Option (State P) :=
  match s.proc p, s.sem with
  | .start, _ =>
    some (move s p (if (argv p).length ≠ 1 ∨ (argv p)[0]? = some "--help".toList then .gaveUp
      else .semget1))
  | .semget1, some _ => some (move s p .semget2)
  | .setval, some ds =>
    some { move s p .dummySemop with
      sem := some { ds with semval := 0 }
      isInit := true }
  | .semget2, some _ => some (move s p (.stat 0))
  | .stat j, some ds => some (move s p (afterStat ((argv p).headD []) j ds.sem_otime))
  | _, _ => none

def semop (argv : P → List (List Char)) (s : State P) (p : P) (t : ℤ) : Option (State P) :=
  match s.proc p, s.sem with
  | .dummySemop, some ds =>
    (semopValue ds.semval 0).map fun val =>
      { move s p (afterInit ((argv p).headD [])) with sem := some ⟨val, t⟩ }
  | .semop sem_op, some ds =>
    (semopValue ds.semval sem_op).map fun val =>
      { move s p (.success sem_op) with
        sem := some ⟨val, t⟩
        applied := s.applied ++ [(p, sem_op)] }
  | _, _ => none

def step (argv : P → List (List Char)) (s : State P) : Act P → Option (State P)
  | .run p => run argv s p
  | .create p val =>
    if s.proc p = .semget1 ∧ s.sem.isNone then
      some { move s p .setval with sem := some ⟨val, 0⟩ }
    else none
  | .semop p t => if t ≠ 0 then semop argv s p t else none
  | .fail p =>
    match s.proc p with
    | .semget1 | .setval | .dummySemop | .semget2 | .stat _ | .semop _ => some (move s p .gaveUp)
    | _ => none

def machine (argv : P → List (List Char)) : Machine (State P) (Act P) where
  init s := s = initial
  step := step argv

end Model

/-! ## Phases

The set is first absent, then created, then initialised, and at last its `sem_otime` is set. Only
the creator can take the set from one phase to the next. -/

def phase (s : State P) : ℕ :=
  match s.sem with
  | none => 0
  | some ds => if ds.sem_otime ≠ 0 then 3 else if s.isInit then 2 else 1

/-- The first phase in which a process can be at a place. -/
def Pc.since : Pc → ℕ
  | .start | .semget1 | .gaveUp => 0
  | .setval | .semget2 | .stat _ => 1
  | .dummySemop => 2
  | .semop _ | .success _ => 3

/-- The places of the creator before it has set `sem_otime`. -/
def Pc.creating : Pc → Bool
  | .setval | .dummySemop => true
  | _ => false

/-- `sem_op` is the argument of the process, as a `short`. -/
def IsSemOp (argv : List (List Char)) (sem_op : ℤ) : Prop :=
  ∃ arg v, argv = [arg] ∧ getInt (some arg) 0 (some "sem-op") = .ok v ∧ sem_op = v.bmod (2 ^ 16)

/-- What the command line has to do with the place of a process. -/
def ArgsRead (argv : List (List Char)) : Pc → Prop
  | .start | .gaveUp => True
  | .semop sem_op | .success sem_op => IsSemOp argv sem_op
  | _ => ∃ arg, argv = [arg]

structure Inv (argv : P → List (List Char)) (s : State P) : Prop where
  since : ∀ p, (s.proc p).since ≤ phase s
  creating : ∀ p, (s.proc p).creating = true → phase s = (s.proc p).since
  creator : ∀ p q, (s.proc p).creating = true → (s.proc q).creating = true → p = q
  args : ∀ p, ArgsRead (argv p) (s.proc p)
  isInit : s.isInit = true ↔ 2 ≤ phase s
  value : ∀ ds, s.sem = some ds → s.isInit = true → ds.semval = (s.applied.map Prod.snd).sum
  mem : ∀ p sem_op, (p, sem_op) ∈ s.applied ↔ s.proc p = .success sem_op
  nodup : (s.applied.map Prod.fst).Nodup

theorem inv_initial (argv : P → List (List Char)) : Inv argv (initial : State P) where
  since _ := le_refl 0
  creating _ h := absurd h (by simp [initial, Pc.creating])
  creator _ _ h := absurd h (by simp [initial, Pc.creating])
  args _ := trivial
  isInit := by simp [initial, phase]
  value _ h := absurd h (by simp [initial])
  mem := by simp [initial]
  nodup := by simp [initial]

section Phase
variable {argv : P → List (List Char)} {s : State P} {p : P} {pc : Pc} {ds : SemidDs}

theorem Inv.args_at (h : Inv argv s) (hp : s.proc p = pc) : ArgsRead (argv p) pc := hp ▸ h.args p

theorem Inv.since_at (h : Inv argv s) (hp : s.proc p = pc) : pc.since ≤ phase s := hp ▸ h.since p

theorem Inv.phase_at (h : Inv argv s) (hp : s.proc p = pc) (hc : pc.creating = true) :
    phase s = pc.since := by
  subst hp
  exact h.creating p hc

theorem phase_of_some (hds : s.sem = some ds) :
    phase s = if ds.sem_otime ≠ 0 then 3 else if s.isInit then 2 else 1 := by rw [phase, hds]

theorem phase_of_otime (hds : s.sem = some ds) (h : ds.sem_otime ≠ 0) : phase s = 3 := by
  rw [phase_of_some hds, if_pos h]

theorem otime_of_phase (hds : s.sem = some ds) (h : phase s < 3) : ds.sem_otime = 0 := by
  by_contra hne
  exact absurd (phase_of_otime hds hne) h.ne

theorem phase_le_three (s : State P) : phase s ≤ 3 := by
  unfold phase
  split
  · omega
  · split_ifs <;> omega

theorem exists_sem (h : 1 ≤ phase s) : ∃ ds, s.sem = some ds := by
  cases hds : s.sem with
  | none => simp [phase, hds] at h
  | some ds => exact ⟨ds, rfl⟩

theorem one_le_phase (hds : s.sem = some ds) : 1 ≤ phase s := by
  rw [phase_of_some hds]
  split_ifs <;> omega

/-- No operation is applied before `sem_otime` is set. -/
theorem Inv.applied_eq_nil (h : Inv argv s) (hphase : phase s < 3) : s.applied = [] := by
  rw [List.eq_nil_iff_forall_not_mem]
  rintro ⟨q, sem_op⟩ hmem
  have hsince := h.since_at ((h.mem q sem_op).mp hmem)
  exact absurd hsince (not_le.mpr hphase)

/-- Other processes are not creators when `p` is, or when the set does not exist. -/
theorem Inv.others_not_creating (h : Inv argv s)
    (hp : (s.proc p).creating = true ∨ s.sem = none) : ∀ q ≠ p, (s.proc q).creating = false := by
  intro q hq
  by_contra hc
  rw [Bool.not_eq_false] at hc
  rcases hp with hp | hnone
  · exact hq (h.creator q p hc hp)
  · have hphase : phase s = 0 := by rw [phase, hnone]
    have hsince := h.creating q hc
    rw [hphase] at hsince
    revert hc hsince
    cases s.proc q <;> simp [Pc.creating, Pc.since]

/-- The semaphore is 0 when the creator makes its no-op. -/
theorem Inv.value_at_dummy (h : Inv argv s) (hp : s.proc p = .dummySemop) {ds : SemidDs}
    (hds : s.sem = some ds) : ds.semval = 0 := by
  have hphase : phase s = 2 := h.phase_at hp rfl
  rw [h.value ds hds (h.isInit.mpr hphase.ge), h.applied_eq_nil (by omega)]
  rfl

end Phase

section Step
variable [DecidableEq P] {argv : P → List (List Char)} {s s' : State P} {p : P} {pc : Pc}

/-- The places of the applied operations, when `p` moves from a place where it has applied none. -/
theorem mem_applied_move (hmem : ∀ q sem_op, (q, sem_op) ∈ s.applied ↔ s.proc q = .success sem_op)
    (hbefore : ∀ sem_op, s.proc p ≠ .success sem_op) (hafter : ∀ sem_op, pc ≠ .success sem_op)
    (q : P) (sem_op : ℤ) :
    (q, sem_op) ∈ s.applied ↔ Function.update s.proc p pc q = .success sem_op := by
  by_cases hq : q = p
  · subst hq
    simp [hmem, hbefore, hafter]
  · rw [Function.update_of_ne hq, hmem]

/-- What is to be shown when `p` moves to `pc` and the semaphore may change. -/
theorem inv_update (h : Inv argv s) (hproc : s'.proc = Function.update s.proc p pc)
    (hphase : phase s ≤ phase s') (hsince : pc.since ≤ phase s')
    (hcreating : pc.creating = true → phase s' = pc.since)
    (hcreator : phase s' = phase s ∧ pc.creating = false ∨ ∀ q ≠ p, (s.proc q).creating = false)
    (hargs : ArgsRead (argv p) pc) (hisInit : s'.isInit = true ↔ 2 ≤ phase s')
    (hvalue : ∀ ds, s'.sem = some ds → s'.isInit = true →
      ds.semval = (s'.applied.map Prod.snd).sum)
    (hmem : ∀ q sem_op, (q, sem_op) ∈ s'.applied ↔
      Function.update s.proc p pc q = .success sem_op)
    (hnodup : (s'.applied.map Prod.fst).Nodup) : Inv argv s' where
  since := by
    rw [hproc, Function.forall_update_iff s.proc fun _ pc => pc.since ≤ phase s']
    exact ⟨hsince, fun q _ => (h.since q).trans hphase⟩
  creating := by
    rw [hproc, Function.forall_update_iff s.proc
      fun _ pc => pc.creating = true → phase s' = pc.since]
    refine ⟨hcreating, fun q hq hc => ?_⟩
    rcases hcreator with ⟨heq, -⟩ | hnone
    · rw [heq]
      exact h.creating q hc
    · exact absurd hc (by simp [hnone q hq])
  creator q r hcq hcr := by
    rw [hproc] at hcq hcr
    rcases hcreator with ⟨-, hno⟩ | hnone
    · -- neither is `p`
      have hne : ∀ t, (Function.update s.proc p pc t).creating = true → t ≠ p := by
        rintro t ht rfl
        rw [Function.update_self, hno] at ht
        cases ht
      rw [Function.update_of_ne (hne q hcq)] at hcq
      rw [Function.update_of_ne (hne r hcr)] at hcr
      exact h.creator q r hcq hcr
    · have heq : ∀ t, (Function.update s.proc p pc t).creating = true → t = p := by
        intro t ht
        by_contra hne
        rw [Function.update_of_ne hne, hnone t hne] at ht
        cases ht
      rw [heq q hcq, heq r hcr]
  args := by
    rw [hproc, Function.forall_update_iff s.proc fun q pc => ArgsRead (argv q) pc]
    exact ⟨hargs, fun q _ => h.args q⟩
  isInit := hisInit
  value := hvalue
  mem := by rwa [hproc]
  nodup := hnodup

theorem inv_move (h : Inv argv s) (hsince : pc.since ≤ phase s) (hcreating : pc.creating = false)
    (hargs : ArgsRead (argv p) pc) (hbefore : ∀ sem_op, s.proc p ≠ .success sem_op)
    (hafter : ∀ sem_op, pc ≠ .success sem_op) : Inv argv (move s p pc) :=
  inv_update h rfl le_rfl hsince (fun hc => absurd hc (by simp [hcreating])) (.inl ⟨rfl, hcreating⟩)
    hargs h.isInit h.value (mem_applied_move h.mem hbefore hafter) h.nodup

theorem inv_gaveUp (h : Inv argv s) (hbefore : ∀ sem_op, s.proc p ≠ .success sem_op) :
    Inv argv (move s p .gaveUp) :=
  inv_move h (Nat.zero_le _) rfl trivial hbefore (by simp)

theorem inv_create (h : Inv argv s) (hp : s.proc p = .semget1) (hnone : s.sem = none) (val : ℤ) :
    Inv argv { move s p .setval with sem := some ⟨val, 0⟩ } := by
  have hphase : phase s = 0 := by rw [phase, hnone]
  have hinit : s.isInit = false := by
    rw [Bool.eq_false_iff, ne_eq, h.isInit, hphase]
    omega
  have hargs := h.args_at hp
  have hphase' : phase { move s p .setval with sem := some ⟨val, 0⟩ } = 1 := by
    rw [phase_of_some rfl]
    simp [move, hinit]
  refine inv_update h rfl (by omega) hphase'.ge (fun _ => hphase')
    (.inr (h.others_not_creating (.inr hnone))) hargs ?_ (fun _ _ hi => ?_)
    (mem_applied_move h.mem (by simp [hp]) (by simp)) h.nodup
  · rw [hphase']
    simp [move, hinit]
  · exact absurd hi (by simp [move, hinit])

/-- SETVAL takes the set from its first phase to the second, and nobody else is a creator. -/
theorem inv_setval (h : Inv argv s) (hp : s.proc p = .setval) {ds : SemidDs}
    (hds : s.sem = some ds) :
    Inv argv { move s p .dummySemop with
      sem := some { ds with semval := 0 }
      isInit := true } := by
  have hcreating : (s.proc p).creating = true := by rw [hp]; rfl
  have hphase : phase s = 1 := h.phase_at hp rfl
  have hotime := otime_of_phase hds (by omega)
  have hnil := h.applied_eq_nil (by omega)
  have hargs := h.args_at hp
  have hphase' : phase { move s p .dummySemop with
      sem := some { ds with semval := 0 }
      isInit := true } = 2 := by
    rw [phase_of_some rfl]
    simp [hotime]
  refine inv_update h rfl (by omega) hphase'.ge (fun _ => hphase')
    (.inr (h.others_not_creating (.inl hcreating))) hargs (by simp [hphase']) ?_
    (mem_applied_move h.mem (by simp [hp]) (by simp)) h.nodup
  rintro _ ⟨⟩ -
  simp [move, hnil]

theorem afterInit_cases (arg : List Char) :
    afterInit arg = .gaveUp ∨ ∃ sem_op, afterInit arg = .semop sem_op ∧ IsSemOp [arg] sem_op := by
  unfold afterInit
  split
  · next v hv => exact .inr ⟨_, rfl, arg, v, rfl, hv, rfl⟩
  · exact .inl rfl

theorem afterInit_not_creating (arg : List Char) : (afterInit arg).creating = false := by
  rcases afterInit_cases arg with h | ⟨_, h, -⟩ <;> rw [h] <;> rfl

theorem afterInit_ne_success (arg : List Char) (sem_op : ℤ) : afterInit arg ≠ .success sem_op := by
  rcases afterInit_cases arg with h | ⟨_, h, -⟩ <;> simp [h]

theorem since_afterInit (arg : List Char) : (afterInit arg).since ≤ 3 := by
  rcases afterInit_cases arg with h | ⟨_, h, -⟩ <;> simp [h, Pc.since]

theorem argsRead_afterInit (arg : List Char) : ArgsRead [arg] (afterInit arg) := by
  rcases afterInit_cases arg with h | ⟨sem_op, h, hop⟩
  · rw [h]
    trivial
  · rw [h]
    exact hop

theorem inv_stat (h : Inv argv s) {j : ℕ} (hp : s.proc p = .stat j) {ds : SemidDs}
    (hds : s.sem = some ds) :
    Inv argv (move s p (afterStat ((argv p).headD []) j ds.sem_otime)) := by
  have hargs := h.args_at hp
  obtain ⟨arg, harg⟩ := hargs
  rw [harg, List.headD_cons, afterStat]
  split_ifs with hotime hj
  · refine inv_move h ?_ (afterInit_not_creating arg) ?_ (by simp [hp]) (afterInit_ne_success arg)
    · rw [phase_of_otime hds hotime]
      exact since_afterInit arg
    · rw [harg]
      exact argsRead_afterInit arg
  · exact inv_move h (one_le_phase hds) rfl ⟨arg, harg⟩ (by simp [hp]) (by simp)
  · exact inv_gaveUp h (by simp [hp])

theorem inv_run (h : Inv argv s) (hs : run argv s p = some s') : Inv argv s' := by
  unfold run at hs
  split at hs
  · next hp =>
    cases hs
    split_ifs with husage
    · exact inv_gaveUp h (by simp [hp])
    · rw [not_or, not_not] at husage
      exact inv_move h (Nat.zero_le _) rfl (List.length_eq_one_iff.mp husage.1) (by simp [hp])
        (by simp)
  · next hp hds =>
    cases hs
    have hargs := h.args_at hp
    exact inv_move h (one_le_phase hds) rfl hargs (by simp [hp]) (by simp)
  · next hp hds =>
    cases hs
    exact inv_setval h hp hds
  · next hp hds =>
    cases hs
    have hargs := h.args_at hp
    exact inv_move h (one_le_phase hds) rfl hargs (by simp [hp]) (by simp)
  · next hp hds =>
    cases hs
    exact inv_stat h hp hds
  · cases hs

theorem semopValue_eq {val sem_op val' : ℤ} (h : semopValue val sem_op = some val') :
    val' = val + sem_op := by
  unfold semopValue at h
  split_ifs at h <;> cases h <;> omega

theorem inv_dummySemop (h : Inv argv s) (hp : s.proc p = .dummySemop) {ds : SemidDs}
    (hds : s.sem = some ds) {val t : ℤ} (ht : t ≠ 0) (hval : semopValue ds.semval 0 = some val) :
    Inv argv { move s p (afterInit ((argv p).headD [])) with sem := some ⟨val, t⟩ } := by
  have hcreating : (s.proc p).creating = true := by rw [hp]; rfl
  have hphase : phase s = 2 := h.phase_at hp rfl
  have hinit := h.isInit.mpr hphase.ge
  have hargs := h.args_at hp
  obtain ⟨arg, harg⟩ := hargs
  rw [harg, List.headD_cons]
  have hphase' : phase { move s p (afterInit arg) with sem := some ⟨val, t⟩ } = 3 :=
    phase_of_otime rfl ht
  refine inv_update h rfl (by omega) ((since_afterInit arg).trans hphase'.ge)
    (fun hc => absurd hc (by simp [afterInit_not_creating]))
    (.inr (h.others_not_creating (.inl hcreating))) (harg ▸ argsRead_afterInit arg)
    (iff_of_true hinit (by omega)) ?_
    (mem_applied_move h.mem (by simp [hp]) (afterInit_ne_success arg)) h.nodup
  rintro _ ⟨⟩ -
  rw [semopValue_eq hval, add_zero]
  exact h.value ds hds hinit

theorem inv_apply (h : Inv argv s) {sem_op : ℤ} (hp : s.proc p = .semop sem_op) {ds : SemidDs}
    (hds : s.sem = some ds) {val t : ℤ} (ht : t ≠ 0)
    (hval : semopValue ds.semval sem_op = some val) :
    Inv argv { move s p (.success sem_op) with
      sem := some ⟨val, t⟩
      applied := s.applied ++ [(p, sem_op)] } := by
  have hphase : 3 ≤ phase s := h.since_at hp
  have hinit := h.isInit.mpr (by omega)
  have hargs := h.args_at hp
  have hnew : ∀ op, (p, op) ∉ s.applied := fun op hmem => by simp [h.mem, hp] at hmem
  have hle : phase s ≤ 3 := phase_le_three s
  have hphase' : phase { move s p (.success sem_op) with
      sem := some ⟨val, t⟩
      applied := s.applied ++ [(p, sem_op)] } = 3 := phase_of_otime rfl ht
  refine inv_update h rfl (hle.trans hphase'.ge) hphase'.ge (by simp [Pc.creating])
    (.inl ⟨by omega, rfl⟩) hargs (iff_of_true hinit (by omega)) ?_ (fun q op => ?_) ?_
  · rintro _ ⟨⟩ -
    rw [semopValue_eq hval, h.value ds hds hinit]
    simp
  · by_cases hq : q = p
    · subst hq
      simp [hnew, eq_comm]
    · simp [hq, h.mem]
  · rw [List.map_append, List.map_singleton, List.nodup_append_comm, List.singleton_append,
      List.nodup_cons]
    exact ⟨by simpa using hnew, h.nodup⟩

theorem inv_step (h : Inv argv s) (a : Act P) (hs : step argv s a = some s') : Inv argv s' := by
  cases a with
  | run p => exact inv_run h hs
  | create p val =>
    simp only [step, Option.ite_none_right_eq_some, Option.some.injEq,
      Option.isNone_iff_eq_none] at hs
    obtain ⟨⟨hp, hnone⟩, rfl⟩ := hs
    exact inv_create h hp hnone val
  | semop p t =>
    obtain ⟨ht, hs⟩ := Option.ite_none_right_eq_some.mp hs
    unfold semop at hs
    split at hs
    · next hp hds =>
      obtain ⟨val, hval, rfl⟩ := Option.map_eq_some_iff.mp hs
      exact inv_dummySemop h hp hds ht hval
    · next hp hds =>
      obtain ⟨val, hval, rfl⟩ := Option.map_eq_some_iff.mp hs
      exact inv_apply h hp hds ht hval
    · cases hs
  | fail p =>
    cases hp : s.proc p <;> simp only [step, hp, Option.some.injEq, reduceCtorEq] at hs <;>
      exact hs ▸ inv_gaveUp h (by simp [hp])

theorem inv_of_reachable (hs : (machine argv).Reachable s) : Inv argv s := by
  refine hs.invariant (I := Inv argv) ?_ fun _ a _ hi hstep => inv_step hi a hstep
  rintro _ rfl
  exact inv_initial argv

end Step

/-- The sum that the semaphore holds misses no operation, and none comes before the SETVAL. -/
theorem svsem_good_init_exact [DecidableEq P] (argv : P → List (List Char)) {s : State P}
    (hs : (machine argv).Reachable s) :
    (∀ p sem_op, s.proc p = .semop sem_op ∨ s.proc p = .success sem_op →
      s.isInit = true ∧ IsSemOp (argv p) sem_op) ∧
    (∀ p t, s.proc p = .dummySemop → t ≠ 0 → (step argv s (.semop p t)).isSome) ∧
    (s.isInit = true →
      ∃ ds, s.sem = some ds ∧ ds.semval = (s.applied.map Prod.snd).sum) ∧
    (∀ p sem_op, (p, sem_op) ∈ s.applied ↔ s.proc p = .success sem_op) ∧
    (s.applied.map Prod.fst).Nodup ∧
    (∀ p, s.proc p = .gaveUp → ∀ sem_op, (p, sem_op) ∉ s.applied) := by
  have h := inv_of_reachable hs
  refine ⟨fun p sem_op hp => ?_, fun p t hp ht => ?_, fun hi => ?_, h.mem, h.nodup,
    fun p hp sem_op hmem => ?_⟩
  · rcases hp with hp | hp
    all_goals exact ⟨h.isInit.mpr ((Nat.le_succ 2).trans (h.since_at hp)), h.args_at hp⟩
  · obtain ⟨ds, hds⟩ := exists_sem ((Nat.le_succ 1).trans (h.since_at hp))
    simp [step, ht, semop, hp, hds, semopValue, h.value_at_dummy hp hds]
  · obtain ⟨ds, hds⟩ := exists_sem ((Nat.le_succ 1).trans (h.isInit.mp hi))
    exact ⟨ds, hds, h.value ds hds hi⟩
  · rw [h.mem, hp] at hmem
    cases hmem

/-- The creator and one other process, with the arguments 5 and -3. -/
theorem svsem_good_init_exact_run : ∃ s : State (Fin 2),
    (machine ![["5".toList], ["-3".toList]]).Reachable s ∧ s.applied = [(0, 5), (1, -3)] ∧
      ∃ ds, s.sem = some ds ∧ ds.semval = (s.applied.map Prod.snd).sum := by
  obtain ⟨s, hs, hp⟩ := Machine.exists_reachable_of_exec
    (M := machine (![["5".toList], ["-3".toList]] : Fin 2 → _)) rfl
    [.run 0, .run 1, .create 0 7, .run 1, .run 1, .run 1, .run 0, .semop 0 1, .run 1, .semop 0 2,
      .semop 1 3] (fun s => s.applied = [(0, 5), (1, -3)] ∧ s.isInit = true) (by decide)
  obtain ⟨happlied, hinit⟩ := of_decide_eq_true hp
  exact ⟨s, hs, happlied, (svsem_good_init_exact _ hs).2.2.1 hinit⟩

end Tlpi.Svsem.GoodInit
