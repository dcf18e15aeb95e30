import Tlpi.Lib.CString
import Tlpi.Lib.Counting
import Tlpi.Lib.Machine
import Tlpi.Lib.Progress
import Mathlib.Tactic

/-! `strerror()` of `threads/strerror_tsd.c`, called by any number of threads. A thread writes its
message a character at a time, and keeps the pointer that it got until its next call; when it exits,
the destructor frees its buffer, whose address may be used again. -/

namespace Tlpi.Threads.StrerrorTsd
open Lib

def MAX_ERROR_LEN : ℕ := 256

/-- The text for an error number; `_sys_errlist` has `none` for a null pointer. -/
def message (_sys_errlist : List (Option (List Char))) (err : ℤ) : List Char :=
  let unknown := snprintf MAX_ERROR_LEN ("Unknown error ".toList ++ (toString err).toList)
  if err < 0 ∨ err ≥ _sys_errlist.length then unknown
  else match (_sys_errlist[err.toNat]?).join with
    | none => unknown
    | some text => strncpy (MAX_ERROR_LEN - 1) text

theorem length_message_lt (_sys_errlist : List (Option (List Char))) (err : ℤ) :
    (message _sys_errlist err).length < MAX_ERROR_LEN := by
  have hunknown : ∀ l, (snprintf MAX_ERROR_LEN l).length < MAX_ERROR_LEN := by
    intro l
    simp only [snprintf, List.length_take, MAX_ERROR_LEN]
    omega
  rw [message]
  split
  · exact hunknown _
  · split
    · exact hunknown _
    · simp only [strncpy, List.length_take, MAX_ERROR_LEN]
      omega

inductive Once
  | fresh
  | running
  | done
  deriving DecidableEq

inductive Pc
  /-- Between two calls, with the error and the result of the last one. -/
  | idle (str : Option (ℤ × ℕ))
  | once (err : ℤ)
  /-- In `createKey()`. -/
  | create (err : ℤ)
  | get (err : ℤ)
  | malloc (err : ℤ)
  | set (err : ℤ) (buf : ℕ)
  /-- About to store the character `n` of the message. -/
  | fill (err : ℤ) (buf n : ℕ)
  | exited
  deriving DecidableEq

structure State (τ : Type*) where
  once : Once
  strerrorKey : Option ℕ
  /-- The number of keys that have been created. -/
  keys : ℕ
  /-- The value of each key in each thread. -/
  specific : ℕ → τ → Option ℕ
  /-- The blocks that are allocated, by their addresses. -/
  heap : ℕ → Option (ℕ → Char)
  pc : τ → Pc

/-- What `pthread_getspecific()` gives in a thread. -/
def State.value {τ : Type*} (s : State τ) (t : τ) : Option ℕ :=
  s.strerrorKey.bind fun key => s.specific key t

inductive Act (τ : Type*)
  | call (t : τ) (err : ℤ)
  | run (t : τ)
  /-- `malloc()` returns the address `a` of a block with whatever contents. -/
  | malloc (t : τ) (a : ℕ) (block : ℕ → Char)
  | exit (t : τ)

section Model
variable {τ : Type*} [DecidableEq τ]

def State.goto (s : State τ) (t : τ) (pc : Pc) : State τ :=
  { s with pc := Function.update s.pc t pc }

/-- `pthread_setspecific()`, or the end of the thread if there is no value. -/
def State.setspecific (s : State τ) (t : τ) (key : ℕ) (buf : Option ℕ) : State τ :=
  { s with specific := Function.update s.specific key (Function.update (s.specific key) t buf) }

def State.store (s : State τ) (buf n : ℕ) (c : Char) : State τ :=
  let block := (s.heap buf).map fun block => Function.update block n c
  { s with heap := Function.update s.heap buf block }

/-- One step of `strerror()`. -/
def run (errlist : List (Option (List Char))) (s : State τ) (t : τ) : Option (State τ) :=
  match s.pc t with
  | .once err =>
    match s.once with
    | .fresh => some { s.goto t (.create err) with once := .running }
    | .running => none
    | .done => some (s.goto t (.get err))
  | .create err =>
    some { s.goto t (.get err) with
      strerrorKey := some s.keys, keys := s.keys + 1, once := .done }
  | .get err =>
    match s.value t with
    | none => some (s.goto t (.malloc err))
    | some buf => some (s.goto t (.fill err buf 0))
  | .set err buf => s.strerrorKey.map fun key =>
      (s.setspecific t key (some buf)).goto t (.fill err buf 0)
  | .fill err buf n =>
    let msg := message errlist err
    some ((s.store buf n (msg.getD n '\x00')).goto t
      (if n < msg.length then .fill err buf (n + 1) else .idle (some (err, buf))))
  | _ => none

def step (errlist : List (Option (List Char))) (s : State τ) : Act τ → Option (State τ)
  | .call t err =>
    match s.pc t with
    | .idle _ => some (s.goto t (.once err))
    | _ => none
  | .run t => run errlist s t
  | .malloc t a block =>
    match s.pc t with
    | .malloc err =>
      if (s.heap a).isNone then
        some { s.goto t (.set err a) with heap := Function.update s.heap a (some block) }
      else none
    | _ => none
  | .exit t =>
    match s.pc t with
    | .idle _ =>
      match s.strerrorKey, s.value t with
      | some key, some buf => some { (s.setspecific t key none).goto t .exited with
          heap := Function.update s.heap buf none }
      | _, _ => some (s.goto t .exited)
    | _ => none

def start : State τ where
  once := .fresh
  strerrorKey := none
  keys := 0
  specific _ _ := none
  heap _ := none
  pc _ := .idle none

def machine (errlist : List (Option (List Char))) : Machine (State τ) (Act τ) where
  init s := s = start
  step := step errlist

end Model

/-! ## The buffers -/

section Buffers
variable {τ : Type*} {errlist : List (Option (List Char))} {s s' : State τ} {t u : τ}

/-- The block that belongs to a thread, also before it is the value of the key. -/
def State.buffer (s : State τ) (t : τ) : Option ℕ :=
  match s.pc t with
  | .set _ buf => some buf
  | _ => s.value t

/-- The characters of the string at `buf` before `n` are those of the message. -/
def State.HasText (s : State τ) (msg : List Char) (buf n : ℕ) : Prop :=
  ∀ i < n, (s.heap buf).map (· i) = some (msg.getD i '\x00')

/-- The block at `buf` holds the message as a string. -/
def State.IsString (s : State τ) (buf : ℕ) (msg : List Char) : Prop :=
  s.HasText msg buf (msg.length + 1)

def ThreadInv (errlist : List (Option (List Char))) (s : State τ) (t : τ) : Prop :=
  match s.pc t with
  | .idle none | .once _ => True
  | .idle (some (err, buf)) => s.value t = some buf ∧ s.IsString buf (message errlist err)
  | .create _ => s.once = .running
  | .get _ => s.once = .done
  | .malloc _ | .set _ _ => s.once = .done ∧ s.value t = none
  | .fill err buf n => s.once = .done ∧ s.value t = some buf ∧
      n ≤ (message errlist err).length ∧ s.HasText (message errlist err) buf n
  | .exited => s.value t = none

structure KeyInv (s : State τ) : Prop where
  done : s.once = .done → s.strerrorKey = some 0 ∧ s.keys = 1
  not_done : s.once ≠ .done → s.strerrorKey = none ∧ s.keys = 0 ∧ ∀ key t, s.specific key t = none
  /-- Only one thread is ever in `createKey()`. -/
  create : ∀ t u err err', s.pc t = .create err → s.pc u = .create err' → t = u
  running : s.once = .running → ∃ t err, s.pc t = .create err

structure Inv (errlist : List (Option (List Char))) (s : State τ) : Prop where
  key : KeyInv s
  thread : ∀ t, ThreadInv errlist s t
  owner : ∀ t u buf, s.buffer t = some buf → s.buffer u = some buf → t = u
  heap : ∀ a, (s.heap a).isSome = true ↔ ∃ t, s.buffer t = some a

/-- A step of `t` that keeps off the buffers of the other threads. -/
structure Frame (s s' : State τ) (t : τ) : Prop where
  pc : ∀ u ≠ t, s'.pc u = s.pc u
  value : ∀ u ≠ t, s'.value u = s.value u
  heap : ∀ u ≠ t, ∀ a, s.buffer u = some a → s'.heap a = s.heap a
  own : ∀ u ≠ t, ∀ a, s'.buffer t = some a → s.buffer u ≠ some a
  alloc : ∀ a, (s'.heap a).isSome = true ↔ s'.buffer t = some a ∨ ∃ u ≠ t, s.buffer u = some a

theorem Frame.buffer (hf : Frame s s' t) (hu : u ≠ t) : s'.buffer u = s.buffer u := by
  rw [State.buffer, State.buffer, hf.pc u hu, hf.value u hu]

theorem Frame.hasText (hf : Frame s s' t) (hu : u ≠ t) {msg : List Char} {buf n : ℕ}
    (hbuf : s.buffer u = some buf) (h : s.HasText msg buf n) : s'.HasText msg buf n := by
  intro i hi
  rw [hf.heap u hu buf hbuf]
  exact h i hi

/-- The other threads are where they were. -/
theorem ThreadInv.frame (hf : Frame s s' t) (hu : u ≠ t) (honce : s'.once = s.once)
    (h : ThreadInv errlist s u) : ThreadInv errlist s' u := by
  have hbuffer : ∀ buf, s.value u = some buf → (∀ err b, s.pc u ≠ .set err b) →
      s.buffer u = some buf := by
    intro buf hval hpc
    rw [State.buffer]
    split
    · exact absurd ‹_› (hpc _ _)
    · exact hval
  unfold ThreadInv at h ⊢
  rw [hf.pc u hu, hf.value u hu, honce]
  split at h
  · trivial
  · trivial
  · rename_i hpc
    exact ⟨h.1, hf.hasText hu (hbuffer _ h.1 (by simp [hpc])) h.2⟩
  · exact h
  · exact h
  · exact h
  · exact h
  · rename_i hpc
    exact ⟨h.1, h.2.1, h.2.2.1, hf.hasText hu (hbuffer _ h.2.1 (by simp [hpc])) h.2.2.2⟩
  · exact h

theorem owner_of_frame (h : ∀ t u buf, s.buffer t = some buf → s.buffer u = some buf → t = u)
    (hf : Frame s s' t) (a b : τ) (buf : ℕ) (ha : s'.buffer a = some buf)
    (hb : s'.buffer b = some buf) : a = b := by
  by_cases hat : a = t <;> by_cases hbt : b = t
  · exact hat.trans hbt.symm
  · rw [hf.buffer hbt] at hb
    exact absurd hb (hf.own b hbt buf (hat ▸ ha))
  · rw [hf.buffer hat] at ha
    exact absurd ha (hf.own a hat buf (hbt ▸ hb))
  · rw [hf.buffer hat] at ha
    rw [hf.buffer hbt] at hb
    exact h a b buf ha hb

theorem heap_of_frame (hf : Frame s s' t) (a : ℕ) :
    (s'.heap a).isSome = true ↔ ∃ u, s'.buffer u = some a := by
  rw [hf.alloc a]
  constructor
  · rintro (ha | ⟨u, hu, ha⟩)
    · exact ⟨t, ha⟩
    · exact ⟨u, by rw [hf.buffer hu, ha]⟩
  · rintro ⟨u, ha⟩
    by_cases hu : u = t
    · exact .inl (hu ▸ ha)
    · exact .inr ⟨u, hu, by rw [← hf.buffer hu, ha]⟩

theorem Inv.move (h : Inv errlist s) (hf : Frame s s' t) (honce : s'.once = s.once)
    (hkey : s'.strerrorKey = s.strerrorKey ∧ s'.keys = s.keys)
    (hspecific : s.once ≠ .done → s'.specific = s.specific)
    (hold : ∀ err, s.pc t ≠ .create err) (hnew : ∀ err, s'.pc t ≠ .create err)
    (ht : ThreadInv errlist s' t) : Inv errlist s' where
  key :=
    { done := by
        rw [honce, hkey.1, hkey.2]
        exact h.key.done
      not_done := by
        intro hd
        rw [honce] at hd
        rw [hkey.1, hkey.2, hspecific hd]
        exact h.key.not_done hd
      create := by
        intro a b err err' ha hb
        have hat : a ≠ t := fun heq => hnew err (heq ▸ ha)
        have hbt : b ≠ t := fun heq => hnew err' (heq ▸ hb)
        rw [hf.pc a hat] at ha
        rw [hf.pc b hbt] at hb
        exact h.key.create a b err err' ha hb
      running := by
        intro hr
        rw [honce] at hr
        obtain ⟨a, err, ha⟩ := h.key.running hr
        have hat : a ≠ t := fun heq => hold err (heq ▸ ha)
        exact ⟨a, err, by rw [hf.pc a hat, ha]⟩ }
  thread u := by
    by_cases hu : u = t
    · exact hu ▸ ht
    · exact (h.thread u).frame hf hu honce
  owner := owner_of_frame h.owner hf
  heap := heap_of_frame hf

theorem buffer_eq_value (h : ∀ err buf, s.pc t ≠ .set err buf) : s.buffer t = s.value t := by
  rw [State.buffer]
  split
  · exact absurd ‹_› (h _ _)
  · rfl

/-- A step that leaves `t` with its buffer, and changes nothing else than what is in it. -/
theorem Inv.frame_of_buffer (h : Inv errlist s) (hpc : ∀ u ≠ t, s'.pc u = s.pc u)
    (hvalue : ∀ u ≠ t, s'.value u = s.value u) (hbuffer : s'.buffer t = s.buffer t)
    (hheap : ∀ a, s.buffer t ≠ some a → s'.heap a = s.heap a)
    (halloc : ∀ a, (s'.heap a).isSome = (s.heap a).isSome) : Frame s s' t where
  pc := hpc
  value := hvalue
  heap u hu a ha := hheap a fun hat => hu (h.owner u t a ha hat)
  own u hu a ha hau := hu (h.owner u t a hau (hbuffer ▸ ha))
  alloc a := by
    rw [halloc a, h.heap a, hbuffer]
    constructor
    · rintro ⟨u, ha⟩
      by_cases hu : u = t
      · exact .inl (hu ▸ ha)
      · exact .inr ⟨u, hu, ha⟩
    · rintro (ha | ⟨u, -, ha⟩)
      · exact ⟨t, ha⟩
      · exact ⟨u, ha⟩

/-- Before the key exists, no thread has come further than `pthread_once()`. -/
theorem Inv.value_of_not_done (h : Inv errlist s) (hd : s.once ≠ .done) (t : τ) :
    s.value t = none := by
  rw [State.value, (h.key.not_done hd).1]
  rfl

/-- The steps that change the state of `once`. -/
theorem ThreadInv.of_not_done (h : Inv errlist s) (hd : s.once ≠ .done) (hpc : s'.pc u = s.pc u)
    (hcreate : ∀ err, s.pc u ≠ .create err) (hvalue : s'.value u = none) :
    ThreadInv errlist s' u := by
  have hu := h.thread u
  have hnone := h.value_of_not_done hd u
  unfold ThreadInv at hu ⊢
  rw [hpc]
  split at hu
  · trivial
  · trivial
  · simp [hnone] at hu
  · exact absurd ‹_› (hcreate _)
  · exact absurd hu hd
  · exact absurd hu.1 hd
  · exact absurd hu.1 hd
  · exact absurd hu.1 hd
  · exact hvalue

theorem Inv.buffer_of_not_done (h : Inv errlist s) (hd : s.once ≠ .done) (t : τ) :
    s.buffer t = none := by
  have ht := h.thread t
  rw [State.buffer]
  split
  · rename_i hpc
    rw [ThreadInv, hpc] at ht
    exact absurd ht.1 hd
  · exact h.value_of_not_done hd t

theorem Inv.of_not_done (h : Inv errlist s) (hd : s.once ≠ .done) (hkey : KeyInv s')
    (hpc : ∀ u ≠ t, s'.pc u = s.pc u) (hcreate : ∀ u ≠ t, ∀ err, s.pc u ≠ .create err)
    (hvalue : ∀ u, s'.value u = none) (hset : ∀ err buf, s'.pc t ≠ .set err buf)
    (hheap : s'.heap = s.heap) (ht : ThreadInv errlist s' t) : Inv errlist s' := by
  have hbuffer : ∀ u, s'.buffer u = none := by
    intro u
    by_cases hu : u = t
    · subst hu
      rw [buffer_eq_value hset, hvalue]
    · rw [← h.buffer_of_not_done hd u, State.buffer, State.buffer, hpc u hu, hvalue u,
        h.value_of_not_done hd u]
  refine ⟨hkey, fun u => ?_, fun a b buf ha => ?_, fun a => ?_⟩
  · by_cases hu : u = t
    · exact hu ▸ ht
    · exact ThreadInv.of_not_done h hd (hpc u hu) (hcreate u hu) (hvalue u)
  · simp [hbuffer a] at ha
  · have hiff := h.heap a
    simp only [h.buffer_of_not_done hd] at hiff
    simp only [hbuffer, hheap]
    exact hiff

theorem heap_store_of_ne {buf n a : ℕ} {c : Char} (ha : a ≠ buf) :
    (s.store buf n c).heap a = s.heap a := Function.update_of_ne ha ..

theorem isSome_heap_store (s : State τ) (buf n : ℕ) (c : Char) (a : ℕ) :
    ((s.store buf n c).heap a).isSome = (s.heap a).isSome := by
  by_cases ha : a = buf
  · subst ha
    simp [State.store]
  · rw [heap_store_of_ne ha]

/-- One more character is in its place. -/
theorem hasText_store {msg : List Char} {buf n : ℕ} (hsome : (s.heap buf).isSome = true)
    (h : s.HasText msg buf n) : (s.store buf n (msg.getD n '\x00')).HasText msg buf (n + 1) := by
  obtain ⟨block, hblock⟩ := Option.isSome_iff_exists.mp hsome
  intro i hi
  by_cases hin : i = n
  · subst hin
    simp [State.store, hblock]
  · have hold := h i (by omega)
    simp only [State.store, Function.update_self, hblock, Option.map_some,
      Function.update_of_ne hin] at hold ⊢
    exact hold

theorem inv_start (errlist : List (Option (List Char))) : Inv errlist (start : State τ) where
  key :=
    { done := fun h => by cases h
      not_done := fun _ => ⟨rfl, rfl, fun _ _ => rfl⟩
      create := fun _ _ _ _ h => by cases h
      running := fun h => by cases h }
  thread _ := trivial
  owner _ _ _ h := by cases h
  heap a := by
    constructor
    · intro h
      cases h
    · rintro ⟨_, h⟩
      cases h

end Buffers

/-! ## The steps -/

section Steps
variable {τ : Type*} [DecidableEq τ] {errlist : List (Option (List Char))} {s s' : State τ}
  {t : τ} {pc' : Pc}

theorem pc_goto_self : (s.goto t pc').pc t = pc' := Function.update_self ..

theorem pc_goto_of_ne {u : τ} (h : u ≠ t) : (s.goto t pc').pc u = s.pc u :=
  Function.update_of_ne h ..

/-- A step that only moves `t` on. -/
theorem Inv.goto (h : Inv errlist s) (hold : ∀ err, s.pc t ≠ .create err)
    (hold' : ∀ err buf, s.pc t ≠ .set err buf) (hnew : ∀ err, pc' ≠ .create err)
    (hnew' : ∀ err buf, pc' ≠ .set err buf) (ht : ThreadInv errlist (s.goto t pc') t) :
    Inv errlist (s.goto t pc') := by
  have hbuffer : (s.goto t pc').buffer t = s.buffer t := by
    rw [buffer_eq_value (by rwa [pc_goto_self]), buffer_eq_value hold']
    rfl
  refine h.move (h.frame_of_buffer (fun u hu => pc_goto_of_ne hu) (fun _ _ => rfl) hbuffer
    (fun _ _ => rfl) fun _ => rfl) rfl ⟨rfl, rfl⟩ (fun _ => rfl) hold ?_ ht
  rwa [pc_goto_self]

theorem inv_call (h : Inv errlist s) {err : ℤ} (ha : step errlist s (.call t err) = some s') :
    Inv errlist s' := by
  rw [step] at ha
  cases hpc : s.pc t with
  | idle str =>
    rw [hpc] at ha
    obtain rfl := Option.some.inj ha
    refine h.goto (by simp [hpc]) (by simp [hpc]) (by simp) (by simp) ?_
    rw [ThreadInv, pc_goto_self]
    trivial
  | _ => simp [hpc] at ha

/-- The first thread enters `createKey()`. -/
theorem inv_once (h : Inv errlist s) {err : ℤ} (honce : s.once = .fresh) :
    Inv errlist { s.goto t (.create err) with once := .running } := by
  have hd : s.once ≠ .done := by simp [honce]
  have hnone : ∀ u e, s.pc u ≠ .create e := by
    intro u e hu
    have hinv := h.thread u
    rw [ThreadInv, hu] at hinv
    simp [honce] at hinv
  have hself : ∀ u e, (s.goto t (.create err)).pc u = .create e → u = t := by
    intro u e hu
    by_contra hne
    rw [pc_goto_of_ne hne] at hu
    exact hnone u e hu
  refine h.of_not_done hd ?_ (fun u hu => pc_goto_of_ne hu) (fun u _ => hnone u)
    (h.value_of_not_done hd) (by simp [State.goto]) rfl ?_
  · exact {
      done := fun h' => by cases h'
      not_done := fun _ => h.key.not_done hd
      create := fun a b e e' ha hb => (hself a e ha).trans (hself b e' hb).symm
      running := fun _ => ⟨t, err, pc_goto_self⟩ }
  · simp only [ThreadInv, pc_goto_self]

/-- And leaves it with the key. -/
theorem inv_create (h : Inv errlist s) {err : ℤ} (hpc : s.pc t = .create err) :
    Inv errlist { s.goto t (.get err) with
      strerrorKey := some s.keys, keys := s.keys + 1, once := .done } := by
  have honce : s.once = .running := by
    have ht := h.thread t
    rwa [ThreadInv, hpc] at ht
  have hd : s.once ≠ .done := by simp [honce]
  obtain ⟨-, hkeys, hspecific⟩ := h.key.not_done hd
  have hother : ∀ u ≠ t, ∀ e, s.pc u ≠ .create e :=
    fun u hu e hc => hu (h.key.create u t e err hc hpc)
  have hnone : ∀ u e, (s.goto t (.get err)).pc u ≠ .create e := by
    intro u e
    by_cases hu : u = t
    · subst hu
      rw [pc_goto_self]
      simp
    · rw [pc_goto_of_ne hu]
      exact hother u hu e
  refine h.of_not_done hd ?_ (fun u hu => pc_goto_of_ne hu) hother
    (fun u => hspecific s.keys u) (by simp [State.goto]) rfl ?_
  · exact {
      done := fun _ => by simp [hkeys]
      not_done := fun h' => absurd rfl h'
      create := fun a _ e _ ha => absurd ha (hnone a e)
      running := fun h' => by cases h' }
  · simp only [ThreadInv, pc_goto_self]

theorem inv_malloc (h : Inv errlist s) {err : ℤ} {a : ℕ} {block : ℕ → Char}
    (hpc : s.pc t = .malloc err) (hfree : s.heap a = none) :
    Inv errlist { s.goto t (.set err a) with heap := Function.update s.heap a (some block) } := by
  have ht := h.thread t
  rw [ThreadInv, hpc] at ht
  have hunowned : ∀ u, s.buffer u ≠ some a := by
    intro u hu
    have := (h.heap a).mpr ⟨u, hu⟩
    simp [hfree] at this
  have hbuffer : State.buffer { s.goto t (.set err a) with
      heap := Function.update s.heap a (some block) } t = some a := by
    simp only [State.buffer, pc_goto_self]
  refine h.move (t := t) ⟨fun u hu => pc_goto_of_ne hu, fun _ _ => rfl, ?_, ?_, ?_⟩ rfl ⟨rfl, rfl⟩
    (fun _ => rfl) (by simp [hpc]) (by simp [State.goto]) ?_
  · intro u hu b hb
    have hne : b ≠ a := fun heq => hunowned u (heq ▸ hb)
    exact Function.update_of_ne hne ..
  · intro u hu b hb
    rw [hbuffer] at hb
    exact Option.some.inj hb ▸ hunowned u
  · intro b
    rw [hbuffer]
    by_cases hba : b = a
    · subst hba
      simp
    · have hne : some a ≠ some b := fun heq => hba (Option.some.inj heq).symm
      have hown := h.heap b
      have htb : s.buffer t ≠ some b := by
        rw [buffer_eq_value (by simp [hpc]), ht.2]
        simp
      simp only [Function.update_of_ne hba, hown, hne, false_or]
      constructor
      · rintro ⟨u, hu⟩
        exact ⟨u, fun heq => htb (heq ▸ hu), hu⟩
      · rintro ⟨u, -, hu⟩
        exact ⟨u, hu⟩
  · simp only [ThreadInv, pc_goto_self]
    exact ht

theorem value_setspecific_self {key : ℕ} (hkey : s.strerrorKey = some key) (buf : Option ℕ) :
    (s.setspecific t key buf).value t = buf := by
  simp [State.value, State.setspecific, hkey]

theorem value_setspecific_of_ne {key : ℕ} (hkey : s.strerrorKey = some key) (buf : Option ℕ) {u : τ}
    (hu : u ≠ t) : (s.setspecific t key buf).value u = s.value u := by
  simp [State.value, State.setspecific, hkey, hu]

theorem inv_set (h : Inv errlist s) {err : ℤ} {buf key : ℕ} (hpc : s.pc t = .set err buf)
    (hkey : s.strerrorKey = some key) :
    Inv errlist ((s.setspecific t key (some buf)).goto t (.fill err buf 0)) := by
  have ht := h.thread t
  rw [ThreadInv, hpc] at ht
  have hvalue := value_setspecific_self (t := t) hkey (some buf)
  have hbuffer : ((s.setspecific t key (some buf)).goto t (.fill err buf 0)).buffer t =
      s.buffer t := by
    rw [buffer_eq_value (by simp [State.goto]), State.buffer, hpc]
    exact hvalue
  refine h.move (h.frame_of_buffer (fun u hu => pc_goto_of_ne hu)
    (fun u hu => value_setspecific_of_ne hkey _ hu) hbuffer (fun _ _ => rfl) fun _ => rfl) rfl
    ⟨rfl, rfl⟩ (fun hd => absurd ht.1 hd) (by simp [hpc]) (by simp [State.goto]) ?_
  simp only [ThreadInv, pc_goto_self]
  exact ⟨ht.1, hvalue, Nat.zero_le _, fun i hi => absurd hi (Nat.not_lt_zero i)⟩

theorem inv_fill (h : Inv errlist s) {err : ℤ} {buf n : ℕ} (hpc : s.pc t = .fill err buf n) :
    Inv errlist ((s.store buf n ((message errlist err).getD n '\x00')).goto t
      (if n < (message errlist err).length then .fill err buf (n + 1)
        else .idle (some (err, buf)))) := by
  have ht := h.thread t
  rw [ThreadInv, hpc] at ht
  obtain ⟨hdone, hvalue, hn, htext⟩ := ht
  have hbuf : s.buffer t = some buf := by rw [buffer_eq_value (by simp [hpc]), hvalue]
  have htext := hasText_store ((h.heap buf).mpr ⟨t, hbuf⟩) htext
  generalize hpc' : (if n < (message errlist err).length then Pc.fill err buf (n + 1)
    else Pc.idle (some (err, buf))) = pc'
  have hset : ∀ e b, pc' ≠ .set e b := by
    intro e b
    rw [← hpc']
    split <;> simp
  have hcreate : ∀ e, pc' ≠ .create e := by
    intro e
    rw [← hpc']
    split <;> simp
  refine h.move (h.frame_of_buffer (fun u hu => pc_goto_of_ne hu) (fun _ _ => rfl) ?_ ?_
    (isSome_heap_store s buf n _)) rfl ⟨rfl, rfl⟩ (fun _ => rfl) (by simp [hpc]) ?_ ?_
  · rw [buffer_eq_value (by rwa [pc_goto_self]), hbuf, ← hvalue]
    rfl
  · intro a ha
    exact heap_store_of_ne fun heq => ha (heq ▸ hbuf)
  · rwa [pc_goto_self]
  · rw [ThreadInv, pc_goto_self, ← hpc']
    by_cases hlt : n < (message errlist err).length
    · rw [if_pos hlt]
      exact ⟨hdone, hvalue, hlt, htext⟩
    · rw [if_neg hlt]
      obtain rfl : n = (message errlist err).length := by omega
      exact ⟨hvalue, htext⟩

theorem inv_free (h : Inv errlist s) {str : Option (ℤ × ℕ)} {buf key : ℕ}
    (hpc : s.pc t = .idle str) (hkey : s.strerrorKey = some key) (hvalue : s.value t = some buf) :
    Inv errlist { (s.setspecific t key none).goto t .exited with
      heap := Function.update s.heap buf none } := by
  have hdone : s.once = .done := by
    by_contra hd
    simp [(h.key.not_done hd).1] at hkey
  have hbuf : s.buffer t = some buf := by rw [buffer_eq_value (by simp [hpc]), hvalue]
  have hnone := value_setspecific_self (t := t) hkey none
  have hbuffer : State.buffer { (s.setspecific t key none).goto t .exited with
      heap := Function.update s.heap buf none } t = none := by
    rw [buffer_eq_value (by simp [State.goto])]
    exact hnone
  refine h.move (t := t) ⟨fun u hu => pc_goto_of_ne hu,
    fun u hu => value_setspecific_of_ne hkey _ hu, ?_, ?_, ?_⟩ rfl ⟨rfl, rfl⟩
    (fun hd => absurd hdone hd) (by simp [hpc]) (by simp [State.goto]) ?_
  · intro u hu a ha
    have hne : a ≠ buf := fun heq => hu (h.owner u t a ha (heq ▸ hbuf))
    exact Function.update_of_ne hne ..
  · intro u _ a ha
    simp [hbuffer] at ha
  · intro a
    rw [hbuffer]
    by_cases ha : a = buf
    · subst ha
      simp only [Function.update_self, Option.isSome_none, Bool.false_eq_true, false_iff, not_or,
        reduceCtorEq, not_false_eq_true, true_and, not_exists, not_and]
      exact fun u hu hau => hu (h.owner u t a hau hbuf)
    · simp only [Function.update_of_ne ha, h.heap a, reduceCtorEq, false_or]
      constructor
      · rintro ⟨u, hu⟩
        refine ⟨u, fun heq => ha ?_, hu⟩
        rw [heq, hbuf] at hu
        exact (Option.some.inj hu).symm
      · rintro ⟨u, -, hu⟩
        exact ⟨u, hu⟩
  · simp only [ThreadInv, pc_goto_self]
    exact hnone

theorem inv_exit (h : Inv errlist s) (ha : step errlist s (.exit t) = some s') :
    Inv errlist s' := by
  rw [step] at ha
  cases hpc : s.pc t with
  | idle str =>
    have hmove : s.value t = none → Inv errlist (s.goto t .exited) := by
      intro hvalue
      refine h.goto (by simp [hpc]) (by simp [hpc]) (by simp) (by simp) ?_
      rw [ThreadInv, pc_goto_self]
      exact hvalue
    rw [hpc] at ha
    rcases hkey : s.strerrorKey with _ | key
    · have hvalue : s.value t = none := by rw [State.value, hkey]; rfl
      simp only [hkey] at ha
      obtain rfl := Option.some.inj ha
      exact hmove hvalue
    · rcases hvalue : s.value t with _ | buf
      · simp only [hkey, hvalue] at ha
        obtain rfl := Option.some.inj ha
        exact hmove hvalue
      · simp only [hkey, hvalue] at ha
        obtain rfl := Option.some.inj ha
        exact inv_free h hpc hkey hvalue
  | _ => simp [hpc] at ha

theorem inv_run (h : Inv errlist s) (ha : run errlist s t = some s') : Inv errlist s' := by
  have ht := h.thread t
  rw [run] at ha
  rw [ThreadInv] at ht
  cases hpc : s.pc t with
  | once err =>
    rw [hpc] at ha
    cases honce : s.once with
    | fresh =>
      simp only [honce] at ha
      exact Option.some.inj ha ▸ inv_once h honce
    | running => simp [honce] at ha
    | done =>
      simp only [honce] at ha
      obtain rfl := Option.some.inj ha
      refine h.goto (by simp [hpc]) (by simp [hpc]) (by simp) (by simp) ?_
      rw [ThreadInv, pc_goto_self]
      exact honce
  | create err =>
    simp only [hpc] at ha
    exact Option.some.inj ha ▸ inv_create h hpc
  | get err =>
    rw [hpc] at ha ht
    rcases hvalue : s.value t with _ | buf <;> simp only [hvalue] at ha <;>
      obtain rfl := Option.some.inj ha <;>
      refine h.goto (by simp [hpc]) (by simp [hpc]) (by simp) (by simp) ?_ <;>
      rw [ThreadInv, pc_goto_self]
    · exact ⟨ht, hvalue⟩
    · exact ⟨ht, hvalue, Nat.zero_le _, fun i hi => absurd hi (Nat.not_lt_zero i)⟩
  | set err buf =>
    rw [hpc] at ha
    obtain ⟨key, hkey, rfl⟩ := Option.map_eq_some_iff.mp ha
    exact inv_set h hpc hkey
  | fill err buf n =>
    simp only [hpc] at ha
    exact Option.some.inj ha ▸ inv_fill h hpc
  | idle | malloc | exited => simp [hpc] at ha

theorem inv_step (h : Inv errlist s) {a : Act τ} (ha : step errlist s a = some s') :
    Inv errlist s' := by
  cases a with
  | call t err => exact inv_call h ha
  | run t => exact inv_run h ha
  | malloc t a block =>
    rw [step] at ha
    cases hpc : s.pc t with
    | malloc err =>
      rw [hpc] at ha
      obtain ⟨hfree, ha⟩ := Option.ite_none_right_eq_some.mp ha
      exact Option.some.inj ha ▸ inv_malloc h hpc (Option.isNone_iff_eq_none.mp hfree)
    | _ => simp [hpc] at ha
  | exit t => exact inv_exit h ha

theorem inv_of_reachable (hs : (machine errlist).Reachable s) : Inv errlist s := by
  refine hs.invariant (I := Inv errlist) ?_ fun _ _ _ h ha => inv_step h ha
  rintro _ rfl
  exact inv_start errlist

end Steps

/-! ## Every call returns -/

section Progress
variable {τ : Type*} {errlist : List (Option (List Char))}

/-- The calls and exits are the choice of the threads. -/
def calls : Act τ → ℕ
  | .call _ _ => MAX_ERROR_LEN + 6
  | .exit _ => 1
  | _ => 0

def Pc.weight (errlist : List (Option (List Char))) : Pc → ℕ
  | .idle _ | .exited => 0
  | .once err => (message errlist err).length + 6
  | .create err => (message errlist err).length + 5
  | .get err => (message errlist err).length + 4
  | .malloc err => (message errlist err).length + 3
  | .set err _ => (message errlist err).length + 2
  | .fill err _ n => (message errlist err).length - n + 1

def weight [Fintype τ] (errlist : List (Option (List Char))) (s : State τ) : ℕ :=
  ∑ t, (s.pc t).weight errlist

variable [DecidableEq τ] [Fintype τ] {s s' : State τ} {t : τ}

theorem weight_goto {c : ℕ} {pc' : Pc} (hpc : s'.pc = Function.update s.pc t pc')
    (hlt : pc'.weight errlist < (s.pc t).weight errlist + c) :
    weight errlist s' < weight errlist s + c := by
  have hsum := sum_update (Pc.weight errlist) s.pc t pc'
  simp only [weight, hpc]
  omega

theorem weight_run (h : Inv errlist s) (ha : run errlist s t = some s') :
    weight errlist s' < weight errlist s + 0 := by
  have ht := h.thread t
  rw [run] at ha
  rw [ThreadInv] at ht
  cases hpc : s.pc t with
  | once err =>
    rw [hpc] at ha
    cases honce : s.once with
    | fresh | done =>
      simp only [honce] at ha
      obtain rfl := Option.some.inj ha
      exact weight_goto rfl (by simp [hpc, Pc.weight])
    | running => simp [honce] at ha
  | create err =>
    simp only [hpc] at ha
    obtain rfl := Option.some.inj ha
    exact weight_goto rfl (by simp [hpc, Pc.weight])
  | get err =>
    rw [hpc] at ha
    rcases hvalue : s.value t with _ | buf <;> simp only [hvalue] at ha <;>
      obtain rfl := Option.some.inj ha <;> exact weight_goto rfl (by simp [hpc, Pc.weight])
  | set err buf =>
    rw [hpc] at ha
    obtain ⟨key, -, rfl⟩ := Option.map_eq_some_iff.mp ha
    exact weight_goto rfl (by simp [hpc, Pc.weight])
  | fill err buf n =>
    simp only [hpc] at ha ht
    obtain rfl := Option.some.inj ha
    refine weight_goto rfl ?_
    split
    · simp only [hpc, Pc.weight]
      omega
    · simp [hpc, Pc.weight]
  | idle | malloc | exited => simp [hpc] at ha

theorem weight_step (h : Inv errlist s) {a : Act τ} (ha : step errlist s a = some s') :
    weight errlist s' < weight errlist s + calls a := by
  cases a with
  | run t => exact weight_run h ha
  | call t err =>
    rw [step] at ha
    cases hpc : s.pc t with
    | idle str =>
      rw [hpc] at ha
      obtain rfl := Option.some.inj ha
      have hlen := length_message_lt errlist err
      refine weight_goto rfl ?_
      simp only [hpc, Pc.weight, calls]
      omega
    | _ => simp [hpc] at ha
  | malloc t a block =>
    rw [step] at ha
    cases hpc : s.pc t with
    | malloc err =>
      rw [hpc] at ha
      obtain ⟨-, ha⟩ := Option.ite_none_right_eq_some.mp ha
      obtain rfl := Option.some.inj ha
      exact weight_goto rfl (by simp [hpc, Pc.weight, calls])
    | _ => simp [hpc] at ha
  | exit t =>
    rw [step] at ha
    cases hpc : s.pc t with
    | idle str =>
      simp only [hpc] at ha
      split at ha <;> obtain rfl := Option.some.inj ha <;>
        exact weight_goto rfl (by simp [hpc, Pc.weight, calls])
    | _ => simp [hpc] at ha

omit [DecidableEq τ] in
/-- There is an address left, as each thread has at most one buffer. -/
theorem Inv.exists_free (h : Inv errlist s) : ∃ a, s.heap a = none := by
  obtain ⟨a, ha⟩ := Infinite.exists_notMem_finset
    (Finset.univ.biUnion fun t => (s.buffer t).toFinset)
  refine ⟨a, ?_⟩
  by_contra hsome
  obtain ⟨t, ht⟩ := (h.heap a).mp (Option.isSome_iff_ne_none.mpr hsome)
  exact ha (by simpa using ⟨t, ht⟩)

theorem idle_of_stuck (h : Inv errlist s)
    (hs : ∀ a : Act τ, calls a = 0 → step errlist s a = none) (t : τ) :
    s.pc t = .exited ∨ ∃ str, s.pc t = .idle str := by
  have hcreate : ∀ u err, s.pc u ≠ .create err := by
    intro u err hu
    have hrun := hs (.run u) rfl
    simp [step, run, hu] at hrun
  have hrun := hs (.run t) rfl
  have ht := h.thread t
  rw [step, run] at hrun
  rw [ThreadInv] at ht
  cases hpc : s.pc t with
  | idle str => exact .inr ⟨str, rfl⟩
  | exited => exact .inl rfl
  | once err =>
    cases honce : s.once with
    | fresh | done => simp [hpc, honce] at hrun
    | running =>
      obtain ⟨u, err', hu⟩ := h.key.running honce
      exact absurd hu (hcreate u err')
  | create err => exact absurd hpc (hcreate t err)
  | get err => rcases hvalue : s.value t with _ | buf <;> simp [hpc, hvalue] at hrun
  | malloc err =>
    obtain ⟨a, ha⟩ := h.exists_free
    have hmalloc := hs (.malloc t a fun _ => '\x00') rfl
    simp [step, hpc, ha] at hmalloc
  | set err buf =>
    rw [hpc] at ht
    simp [hpc, (h.key.done ht.1).1] at hrun
  | fill err buf n => simp [hpc] at hrun

end Progress

/-- Whatever threads call `strerror()` and in whatever order their steps come, every call returns.
The string that a thread got is the message of its own last call until it calls again; no two
threads have a buffer in common; the blocks that are allocated are exactly the buffers of the
threads that have called and not exited; no character is stored beyond the end of a buffer; and the
key is created at most once. -/
theorem strerror_tsd_safe {τ : Type*} [DecidableEq τ] [Fintype τ]
    (errlist : List (Option (List Char))) :
    (machine errlist).CompletesUpTo calls (fun s : State τ =>
        ∀ t, s.pc t = .exited ∨ ∃ str, s.pc t = .idle str) ∧
      ∀ s : State τ, (machine errlist).Reachable s →
        (∀ t err buf, s.pc t = .idle (some (err, buf)) →
          s.value t = some buf ∧ s.IsString buf (message errlist err)) ∧
        (∀ t u buf, s.buffer t = some buf → s.buffer u = some buf → t = u) ∧
        (∀ a, (s.heap a).isSome = true ↔ ∃ t, s.buffer t = some a) ∧
        (∀ t, s.pc t = .exited → s.buffer t = none) ∧
        (∀ t err buf n, s.pc t = .fill err buf n → n < MAX_ERROR_LEN) ∧ s.keys ≤ 1 := by
  refine ⟨Machine.completesUpTo_of_weight (Inv errlist) (weight errlist) calls
    (fun _ h => h ▸ inv_start errlist) (fun _ _ _ h ha => inv_step h ha)
    (fun _ _ _ h ha => weight_step h ha) fun _ h hs => idle_of_stuck h hs, fun s hs => ?_⟩
  have h := inv_of_reachable hs
  refine ⟨fun t err buf hpc => ?_, h.owner, h.heap, fun t hpc => ?_, fun t err buf n hpc => ?_, ?_⟩
  · have ht := h.thread t
    rwa [ThreadInv, hpc] at ht
  · have ht := h.thread t
    rw [ThreadInv, hpc] at ht
    rw [buffer_eq_value (by simp [hpc]), ht]
  · have ht := h.thread t
    rw [ThreadInv, hpc] at ht
    exact ht.2.2.1.trans_lt (length_message_lt errlist err)
  · by_cases hd : s.once = .done
    · exact (h.key.done hd).2.le
    · exact (h.key.not_done hd).2.1.le.trans (Nat.zero_le 1)

end Tlpi.Threads.StrerrorTsd
