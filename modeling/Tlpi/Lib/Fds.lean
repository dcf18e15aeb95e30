import Mathlib.Tactic

/-! Tables of open files, indexed by file descriptors. A file is opened at the lowest descriptor
that is not in use. -/

namespace Tlpi.Lib

/-- The file that each descriptor refers to, `none` if it is closed. -/
abbrev Fds (α : Type*) := List (Option α)

namespace Fds

variable {α : Type*}

def file (t : Fds α) (fd : ℕ) : Option α := (t[fd]?).join

def lowest : Fds α → ℕ
  | [] => 0
  | none :: _ => 0
  | some _ :: t => lowest t + 1

def install : Fds α → α → Fds α
  | [], a => [some a]
  | none :: t, a => some a :: t
  | some b :: t, a => some b :: install t a

def close (t : Fds α) (fd : ℕ) : Fds α := t.set fd none

/-- A call changes the file that a descriptor refers to. -/
def update (t : Fds α) (fd : ℕ) (f : α → α) : Fds α := t.modify fd (Option.map f)

@[simp] theorem file_lowest (t : Fds α) : file t (lowest t) = none := by
  induction t with
  | nil => rfl
  | cons x t ih =>
    cases x with
    | none => rfl
    | some b => exact ih

@[simp] theorem file_install_lowest (t : Fds α) (a : α) :
    file (install t a) (lowest t) = some a := by
  induction t with
  | nil => rfl
  | cons x t ih =>
    cases x with
    | none => rfl
    | some b => exact ih

theorem file_install_of_ne {t : Fds α} {fd : ℕ} (h : fd ≠ lowest t) (a : α) :
    file (install t a) fd = file t fd := by
  induction t generalizing fd with
  | nil =>
    obtain ⟨n, rfl⟩ := Nat.exists_eq_succ_of_ne_zero h
    rfl
  | cons x t ih =>
    cases x with
    | none =>
      obtain ⟨n, rfl⟩ := Nat.exists_eq_succ_of_ne_zero h
      rfl
    | some b =>
      cases fd with
      | zero => rfl
      | succ n => exact ih fun hn => h (congrArg (· + 1) hn)

theorem ne_lowest {t : Fds α} {fd : ℕ} {a : α} (h : file t fd = some a) : fd ≠ lowest t := by
  rintro rfl
  rw [file_lowest] at h
  cases h

/-- What is open stays open when another file is opened. -/
theorem file_install {t : Fds α} {fd : ℕ} {a : α} (h : file t fd = some a) (b : α) :
    file (install t b) fd = some a := (file_install_of_ne (ne_lowest h) b).trans h

theorem file_close_of_ne (t : Fds α) {fd fd' : ℕ} (h : fd ≠ fd') :
    file (close t fd') fd = file t fd := by
  rw [file, file, close, List.getElem?_set_ne (Ne.symm h)]

@[simp] theorem file_close_self (t : Fds α) (fd : ℕ) : file (close t fd) fd = none := by
  rw [file, close, List.getElem?_set_self']
  cases t[fd]? <;> rfl

theorem file_update_of_ne (t : Fds α) {fd fd' : ℕ} (h : fd ≠ fd') (f : α → α) :
    file (update t fd' f) fd = file t fd := by
  rw [file, file, update, List.getElem?_modify_ne _ _ (Ne.symm h)]

theorem file_update_self {t : Fds α} {fd : ℕ} {a : α} (h : file t fd = some a) (f : α → α) :
    file (update t fd f) fd = some (f a) := by
  have hget : t[fd]? = some (some a) := Option.join_eq_some_iff.mp h
  rw [file, update, List.getElem?_modify_eq, hget]
  rfl

theorem mem_iff_file {t : Fds α} {a : α} : some a ∈ t ↔ ∃ fd, file t fd = some a := by
  simp only [List.mem_iff_getElem?, file, Option.join_eq_some_iff]

/-! ### Duplicates -/

/-- The descriptor `fd` refers to the file from now on, whatever it referred to before. -/
def put : Fds α → ℕ → α → Fds α
  | [], 0, a => [some a]
  | [], fd + 1, a => none :: put [] fd a
  | _ :: t, 0, a => some a :: t
  | x :: t, fd + 1, a => x :: put t fd a

/-- `dup2()`: there is nothing to do for two equal descriptors. -/
def dup2 (t : Fds α) (fd fd' : ℕ) : Option (Fds α) :=
  (file t fd).map fun a => if fd = fd' then t else put t fd' a

@[simp] theorem file_put_self (t : Fds α) (fd : ℕ) (a : α) : file (put t fd a) fd = some a := by
  fun_induction put with
  | case1 | case3 => rfl
  | case2 _ _ ih | case4 _ _ _ _ ih => exact ih

theorem file_put_of_ne (t : Fds α) {fd fd' : ℕ} (h : fd ≠ fd') (a : α) :
    file (put t fd' a) fd = file t fd := by
  induction fd' generalizing t fd with
  | zero =>
    obtain ⟨n, rfl⟩ := Nat.exists_eq_succ_of_ne_zero h
    cases t <;> rfl
  | succ m ih =>
    cases fd with
    | zero => cases t <;> rfl
    | succ n =>
      have hne : n ≠ m := fun hn => h (congrArg (· + 1) hn)
      cases t with
      | nil => exact ih [] hne
      | cons x t => exact ih t hne

/-- After `dup2()` both descriptors refer to the one file, and the others to what they did. -/
theorem dup2_of_file {t : Fds α} {fd : ℕ} {a : α} (h : file t fd = some a) (fd' : ℕ) :
    ∃ t', dup2 t fd fd' = some t' ∧ file t' fd' = some a ∧ ∀ k ≠ fd', file t' k = file t k := by
  rw [dup2, h]
  by_cases heq : fd = fd'
  · subst heq
    exact ⟨t, by simp, h, fun _ _ => rfl⟩
  · exact ⟨put t fd' a, by simp [heq], file_put_self t fd' a, fun k hk => file_put_of_ne t hk a⟩

/-- Opening a file and closing it again changes nothing. -/
theorem file_close_install (t : Fds α) (a : α) (fd : ℕ) :
    file (close (install t a) (lowest t)) fd = file t fd := by
  by_cases h : fd = lowest t
  · rw [h, file_close_self, file_lowest]
  · rw [file_close_of_ne _ h, file_install_of_ne h]

theorem lowest_le_of_file {t : Fds α} {fd : ℕ} (h : file t fd = none) : lowest t ≤ fd := by
  induction t generalizing fd with
  | nil => exact Nat.zero_le fd
  | cons x t ih =>
    cases x with
    | none => exact Nat.zero_le fd
    | some b =>
      cases fd with
      | zero => simp [file] at h
      | succ n => exact Nat.succ_le_succ (ih h)

end Fds

end Tlpi.Lib
