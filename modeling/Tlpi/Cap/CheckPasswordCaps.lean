import Tlpi.Cap.CapLauncher
import Tlpi.Lib.Lines

/-! `cap/check_password_caps.c`: check a password against the shadow file, with one capability of
the file permitted.

A run is the list of its library calls, each with the capability sets of the process at that time:
what could be done to the system if the call went wrong. -/

namespace Tlpi.Cap.CheckPasswordCaps

open Tlpi.Lib CapLauncher

abbrev capDacReadSearch : ℕ := 2

structure Passwd where
  passwd : List Char
  uid : ℕ

inductive Shadow where
  | record (hash : List Char)
  | missing
  | eacces

structure World where
  input : List Char
  /-- `sysconf(_SC_LOGIN_NAME_MAX)`, if there is a limit. -/
  loginNameMax : Option ℕ
  getpwnam : Name → Option Passwd
  /-- With the effective capabilities of the caller. -/
  getspnam : Finset ℕ → Name → Shadow
  /-- The password, without the terminating null byte. -/
  getpass : Option { password : List Char // '\x00' ∉ password }
  crypt : List Char → List Char → Option (List Char)
  /-- The capability bypasses the permissions of the shadow file. -/
  getspnam_ne_eacces : ∀ effective user, capDacReadSearch ∈ effective →
    getspnam effective user ≠ .eacces

inductive Call where
  | getpwnam
  | getspnam
  | getpass
  | crypt
  | printf

inductive Exit where
  | eof
  /-- `username[len - 1]` before the buffer, or the result of `getpass()` is `NULL`. -/
  | fault
  | noRecord
  | raiseFailed
  | noPermission
  | dropFailed
  | cryptFailed
  | incorrect
  | authenticated (uid : ℕ)
deriving DecidableEq

structure Run where
  calls : List (Call × CapSets ℕ)
  exit : Exit
  /-- The buffer of `getpass()` afterwards. -/
  password : List Char

/-- `modifyCap()`: as `modifyCapSetting()`, for the effective set. -/
def modifyCap (capability : ℕ) (setting : Bool) (s : CapSets ℕ) : Option (CapSets ℕ) :=
  modifyCapSetting .effective capability setting s

def raiseCap (capability : ℕ) (s : CapSets ℕ) : Option (CapSets ℕ) := modifyCap capability true s

def dropAllCaps (s : CapSets ℕ) : Option (CapSets ℕ) := s.capset capSetpcap ∅ ∅ ∅

/-- The line that `fgets()` reads, as a C string without the newline at its end. -/
def username (w : World) : Except Exit Name :=
  match (lines '\n' w.input).head? with
  | none => .error .eof
  | some line =>
    let text := (line.take (w.loginNameMax.getD 256 - 1)).takeWhile (· ≠ '\x00')
    if text = [] then .error .fault
    else .ok (if text.getLast? = some '\n' then text.dropLast else text)

/-- The loop that overwrites the password. -/
def erase : List Char → List Char
  | [] => []
  | p :: ps => if p = '\x00' then p :: ps else '\x00' :: erase ps

/-- From `getpass()` on, with the password hash in use. -/
def authenticate (w : World) (hash : List Char) (uid : ℕ) (s : CapSets ℕ) : Run :=
  match w.getpass with
  | none => ⟨[(.getpass, s)], .fault, []⟩
  | some ⟨password, _⟩ =>
    let calls := [(.getpass, s), (.crypt, s)]
    match w.crypt password hash with
    | none => ⟨calls, .cryptFailed, erase password⟩
    | some encrypted =>
      if encrypted = hash then
        ⟨calls ++ [(.printf, s)], .authenticated uid, erase password⟩
      else ⟨calls ++ [(.printf, s)], .incorrect, erase password⟩

/-- The password hash in use. -/
def hashOf (pwd : Passwd) : Shadow → List Char
  | .record hash => hash
  | _ => pwd.passwd

def main (w : World) (s : CapSets ℕ) : Run :=
  match username w with
  | .error e => ⟨[], e, []⟩
  | .ok user =>
    match w.getpwnam user with
    | none => ⟨[(.getpwnam, s)], .noRecord, []⟩
    | some pwd =>
      match raiseCap capDacReadSearch s with
      | none => ⟨[(.getpwnam, s)], .raiseFailed, []⟩
      | some s₁ =>
        let calls := [(.getpwnam, s), (.getspnam, s₁)]
        match w.getspnam s₁.effective user with
        | .eacces => ⟨calls, .noPermission, []⟩
        | spwd =>
          match dropAllCaps s₁ with
          | none => ⟨calls, .dropFailed, []⟩
          | some s₂ =>
            let run := authenticate w (hashOf pwd spwd) pwd.uid s₂
            { run with calls := calls ++ run.calls }

/-! ### The privileges of the calls -/

/-- What the process can do during a call: as at the start for the password file, one capability
more for the shadow file, and nothing at all from the prompt for the password on. -/
def Allowed (s : CapSets ℕ) : Call → CapSets ℕ → Prop
  | .getpwnam, caps => caps = s
  | .getspnam, caps => caps.effective = insert capDacReadSearch s.effective ∧
      caps.permitted = s.permitted ∧ caps.inheritable = s.inheritable ∧ caps.ambient = s.ambient
  | _, caps => caps.permitted = ∅ ∧ caps.effective = ∅ ∧ caps.inheritable = ∅ ∧ caps.ambient = ∅

theorem raiseCap_of_mem {s : CapSets ℕ} {c : ℕ} (hc : c ∈ s.permitted) :
    ∃ s', raiseCap c s = some s' ∧ s'.permitted = s.permitted ∧
      s'.effective = insert c s.effective ∧ s'.inheritable = s.inheritable ∧
      s'.ambient = s.ambient :=
  CapSets.capset_effective capSetpcap (Finset.insert_subset hc s.effective_subset)

theorem raiseCap_of_notMem {s : CapSets ℕ} {c : ℕ} (hc : c ∉ s.permitted) :
    raiseCap c s = none := by
  rcases h : raiseCap c s with _ | s'
  · rfl
  · obtain ⟨-, -, heff, -⟩ := CapSets.capset_eq_some h
    exact absurd (heff (Finset.mem_insert_self c _)) hc

theorem erase_eq_replicate {password : List Char} (h : '\x00' ∉ password) :
    erase password = List.replicate password.length '\x00' := by
  induction password with
  | nil => rfl
  | cons p ps ih =>
    rw [List.mem_cons, not_or] at h
    rw [erase, if_neg (Ne.symm h.1), ih h.2]
    rfl

/-- From the prompt on, every call has the capabilities `s`, and the password is gone. -/
theorem authenticate_spec (w : World) (hash : List Char) (uid : ℕ) (s : CapSets ℕ) :
    (∀ c ∈ (authenticate w hash uid s).calls, c.1 ≠ .getpwnam ∧ c.1 ≠ .getspnam ∧ c.2 = s) ∧
      (∀ ch ∈ (authenticate w hash uid s).password, ch = '\x00') ∧
      ∀ uid', (authenticate w hash uid s).exit = .authenticated uid' ↔
        uid' = uid ∧ ∃ password ∈ w.getpass, w.crypt password.1 hash = some hash := by
  rcases hp : w.getpass with _ | ⟨password, hnul⟩
  · simp [authenticate, hp]
  have herase : ∀ ch ∈ erase password, ch = '\x00' := fun ch hch =>
    List.eq_of_mem_replicate (erase_eq_replicate hnul ▸ hch)
  rcases hc : w.crypt password hash with _ | encrypted
  · simpa [authenticate, hp, hc] using herase
  · by_cases heq : encrypted = hash
    · simpa [authenticate, hp, hc, heq, eq_comm] using herase
    · simpa [authenticate, hp, hc, heq] using herase

theorem username_error {w : World} {e : Exit} (h : username w = .error e) :
    e = .eof ∨ e = .fault := by
  rw [username] at h
  split at h
  · cases h
    exact .inl rfl
  · dsimp only at h
    split at h
    · cases h
      exact .inr rfl
    · cases h

/-- A run that gets past the lookup in the password file, with the capability permitted. -/
theorem main_of_permitted {w : World} {s : CapSets ℕ} {user : Name} {pwd : Passwd}
    (huser : username w = .ok user) (hpwd : w.getpwnam user = some pwd)
    (hcap : capDacReadSearch ∈ s.permitted) :
    ∃ s₁ s₂ spwd, Allowed s .getspnam s₁ ∧ Allowed s .getpass s₂ ∧
      spwd = w.getspnam (insert capDacReadSearch s.effective) user ∧
      main w s = { authenticate w (hashOf pwd spwd) pwd.uid s₂ with
        calls := [(.getpwnam, s), (.getspnam, s₁)] ++
          (authenticate w (hashOf pwd spwd) pwd.uid s₂).calls } := by
  obtain ⟨s₁, hraise, hperm, heff, hinh, hamb⟩ := raiseCap_of_mem hcap
  obtain ⟨s₂, hdrop, hempty⟩ := CapSets.capset_empty capSetpcap s₁
  refine ⟨s₁, s₂, w.getspnam s₁.effective user, ⟨heff, hperm, hinh, hamb⟩, hempty, by rw [heff], ?_⟩
  have hread := w.getspnam_ne_eacces s₁.effective user (heff ▸ Finset.mem_insert_self _ _)
  have hdrop : dropAllCaps s₁ = some s₂ := hdrop
  simp only [main, huser, hpwd, hraise, hdrop]

end Tlpi.Cap.CheckPasswordCaps
