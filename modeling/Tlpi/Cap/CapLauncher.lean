import Mathlib.Data.List.Basic
import Tlpi.Lib.Caps
import Tlpi.Lib.Outcome

/-! `cap/cap_launcher.c`: run a program as another user, with capabilities of the caller's choice.

The change to a nonzero user ID would take every capability away, so the program first sets the
securebit that prevents it. The capabilities on the command line then go to the inheritable and to
the ambient set, and the ambient set is what an unprivileged program has after the exec. -/

namespace Tlpi.Cap.CapLauncher

open Tlpi.Lib

abbrev Name := List Char

abbrev capSetgid : ℕ := 6
abbrev capSetuid : ℕ := 7
abbrev capSetpcap : ℕ := 8

structure Creds where
  ruid : ℕ
  euid : ℕ
  suid : ℕ
  rgid : ℕ
  egid : ℕ
  sgid : ℕ
  groups : List ℕ
  /-- The securebit `SECBIT_NO_SETUID_FIXUP`. -/
  noSetuidFixup : Bool
  caps : CapSets ℕ

structure Passwd where
  uid : ℕ
  gid : ℕ

structure System where
  getpwnam : Name → Option Passwd
  getgrouplist : Name → ℕ → List ℕ
  capFromName : Name → Option ℕ

inductive Failure where
  | usage
  | notRoot
  | prctl
  | unknownUser (user : Name)
  | setgroups
  | setresgid
  | setresuid
  | unrecognized (name : Name)
  | inheritable (name : Name)
  | ambient (name : Name)
deriving DecidableEq

/-! ### The system calls -/

/-- `prctl(PR_SET_SECUREBITS, SECBIT_NO_SETUID_FIXUP)`. -/
def setSecurebits (c : Creds) : Option Creds :=
  if capSetpcap ∈ c.caps.effective then some { c with noSetuidFixup := true } else none

def setgroups (groups : List ℕ) (c : Creds) : Option Creds :=
  if capSetgid ∈ c.caps.effective then some { c with groups } else none

/-- `setresgid(gid, gid, gid)`. -/
def setresgid (gid : ℕ) (c : Creds) : Option Creds :=
  if capSetgid ∈ c.caps.effective ∨ gid = c.rgid ∨ gid = c.egid ∨ gid = c.sgid then
    some { c with rgid := gid, egid := gid, sgid := gid }
  else none

abbrev MaySetuid (c : Creds) (uid : ℕ) : Prop :=
  capSetuid ∈ c.caps.effective ∨ uid = c.ruid ∨ uid = c.euid ∨ uid = c.suid

/-- `setresuid(uid, uid, uid)`. -/
def setresuid (uid : ℕ) (c : Creds) : Option Creds :=
  if MaySetuid c uid then
    let caps := if c.noSetuidFixup then c.caps else c.caps.setuid c.ruid c.euid c.suid uid
    some { c with ruid := uid, euid := uid, suid := uid, caps }
  else none

/-- The capabilities of the program that is executed from `file`. -/
def execvp (file : FileCaps ℕ) (c : Creds) : CapSets ℕ := c.caps.exec (c.euid = 0) file

/-! ### The program -/

/-- The next step on the new value, or an exit with `e`. -/
def orExit {α β : Type} (e : Failure) (r : Option α) (next : α → Except Failure β) :
    Except Failure β :=
  r.elim (.error e) next

def setCredentials (sys : System) (user : Name) (c : Creds) : Except Failure Creds :=
  orExit (.unknownUser user) (sys.getpwnam user) fun pwd =>
  orExit .setgroups (setgroups (sys.getgrouplist user pwd.gid) c) fun c =>
  orExit .setresgid (setresgid pwd.gid c) fun c =>
  orExit .setresuid (setresuid pwd.uid c) .ok

inductive CapFlag where
  | permitted
  | effective
  | inheritable

/-- The new value of one capability in one set. -/
def setFlag (caps : Finset ℕ) (capability : ℕ) (setting : Bool) : Finset ℕ :=
  if setting then insert capability caps else caps.erase capability

/-- `modifyCapSetting()` of `cap_functions.c`: the three sets are read, changed in one place and
written back together. -/
def modifyCapSetting (flag : CapFlag) (capability : ℕ) (setting : Bool) (s : CapSets ℕ) :
    Option (CapSets ℕ) :=
  match flag with
  | .permitted => s.capset capSetpcap (setFlag s.permitted capability setting) s.effective
      s.inheritable
  | .effective => s.capset capSetpcap s.permitted (setFlag s.effective capability setting)
      s.inheritable
  | .inheritable => s.capset capSetpcap s.permitted s.effective
      (setFlag s.inheritable capability setting)

/-- The pieces that `strtok(p, ",")` gives one after the other. -/
def strtok (p : Name) : List Name := (p.splitOn ',').filter (· ≠ [])

example : strtok ",kill,,chown,".toList = ["kill".toList, "chown".toList] := by decide

/-- The body of the loop for the name `p`. -/
def addAmbient (sys : System) (p : Name) (s : CapSets ℕ) : Except Failure (CapSets ℕ) :=
  orExit (.unrecognized p) (sys.capFromName p) fun cap =>
  orExit (.inheritable p) (modifyCapSetting .inheritable cap true s) fun s =>
  orExit (.ambient p) (s.raiseAmbient cap) .ok

def addAmbients (sys : System) : List Name → CapSets ℕ → Except Failure (CapSets ℕ)
  | [], s => .ok s
  | p :: ps, s => addAmbient sys p s >>= addAmbients sys ps

def setAmbientCapabilities (sys : System) (capList : Name) (c : Creds) : Except Failure Creds :=
  addAmbients sys (strtok capList) c.caps >>= fun caps => .ok { c with caps }

/-- Up to `execvp()`: the credentials with which the program named by `argv[3]` is executed. The
arguments are those after the program's own name. -/
def main (sys : System) (argv : List Name) (c : Creds) : Except Failure Creds :=
  match argv with
  | user :: capList :: _ :: _ =>
    if user = "--help".toList then .error .usage
    else if c.euid ≠ 0 then .error .notRoot
    else
      orExit .prctl (setSecurebits c) fun c =>
      setCredentials sys user c >>= setAmbientCapabilities sys capList
  | _ => .error .usage

/-! ### The credentials -/

@[simp] theorem orExit_eq_ok {α β : Type} {e : Failure} {r : Option α} {next : α → Except Failure β}
    {b : β} : orExit e r next = .ok b ↔ ∃ a, r = some a ∧ next a = .ok b := by
  cases r <;> simp [orExit]

theorem setSecurebits_eq_some {c c' : Creds} :
    setSecurebits c = some c' ↔
      capSetpcap ∈ c.caps.effective ∧ c' = { c with noSetuidFixup := true } := by
  simp [setSecurebits, eq_comm]

/-- With the securebit set, the new credentials have the old capabilities. -/
theorem setCredentials_eq_ok {sys : System} {user : Name} {c c' : Creds}
    (hfix : c.noSetuidFixup = true) :
    setCredentials sys user c = .ok c' ↔
      ∃ pwd, sys.getpwnam user = some pwd ∧ capSetgid ∈ c.caps.effective ∧ MaySetuid c pwd.uid ∧
        c' = ⟨pwd.uid, pwd.uid, pwd.uid, pwd.gid, pwd.gid, pwd.gid,
          sys.getgrouplist user pwd.gid, true, c.caps⟩ := by
  simp only [setCredentials, orExit_eq_ok, setgroups, setresgid, setresuid,
    Option.ite_none_right_eq_some]
  constructor
  · rintro ⟨pwd, hpwd, _, ⟨hgid, hc₁⟩, _, ⟨-, hc₂⟩, _, ⟨huid, hc₃⟩, hok⟩
    cases hc₁
    cases hc₂
    cases hc₃
    cases hok
    exact ⟨pwd, hpwd, hgid, huid, by simp [hfix]⟩
  · rintro ⟨pwd, hpwd, hgid, huid, rfl⟩
    exact ⟨pwd, hpwd, _, ⟨hgid, rfl⟩, _, ⟨.inl hgid, rfl⟩, _, ⟨huid, rfl⟩, by simp [hfix]⟩

/-! ### The capabilities -/

/-- The capability may be made inheritable and ambient. -/
abbrev Grantable (s : CapSets ℕ) (cap : ℕ) : Prop :=
  cap ∈ s.permitted ∧ cap ∈ s.inheritable ∪ s.bounding

/-- From `s` to `s'` the capabilities `caps` became inheritable and ambient, and nothing else
changed. -/
structure Grants (s s' : CapSets ℕ) (caps : Finset ℕ) : Prop where
  permitted : s'.permitted = s.permitted
  effective : s'.effective = s.effective
  inheritable : s'.inheritable = s.inheritable ∪ caps
  ambient : s'.ambient = s.ambient ∪ caps
  bounding : s'.bounding = s.bounding

theorem Grants.refl (s : CapSets ℕ) : Grants s s ∅ := by
  constructor <;> simp

theorem Grants.trans {s s' s'' : CapSets ℕ} {caps caps' : Finset ℕ} (h : Grants s s' caps)
    (h' : Grants s' s'' caps') : Grants s s'' (caps ∪ caps') where
  permitted := h'.permitted.trans h.permitted
  effective := h'.effective.trans h.effective
  inheritable := by rw [h'.inheritable, h.inheritable, Finset.union_assoc]
  ambient := by rw [h'.ambient, h.ambient, Finset.union_assoc]
  bounding := h'.bounding.trans h.bounding

/-- What could be granted has not changed when something that could be granted was. -/
theorem Grants.grantable_iff {s s' : CapSets ℕ} {cap d : ℕ} (h : Grants s s' {cap})
    (hcap : Grantable s cap) : Grantable s' d ↔ Grantable s d := by
  by_cases hd : d = cap
  · subst hd
    simp [Grantable, h.permitted, h.inheritable, hcap.1, Finset.mem_union.mp hcap.2]
  · simp [Grantable, h.permitted, h.inheritable, h.bounding, hd]

theorem addAmbient_of_grantable {sys : System} {p : Name} {s : CapSets ℕ} {cap : ℕ}
    (hp : sys.capFromName p = some cap) (hcap : Grantable s cap) :
    ∃ s', addAmbient sys p s = .ok s' ∧ Grants s s' {cap} := by
  obtain ⟨s₁, hs₁, hperm, heff, hinh, hamb, hbound⟩ :=
    CapSets.capset_insert_inheritable capSetpcap hcap.1 hcap.2
  have hmem : cap ∈ s₁.permitted ∩ s₁.inheritable := by
    rw [hperm, hinh]
    exact Finset.mem_inter.mpr ⟨hcap.1, Finset.mem_insert_self cap _⟩
  refine ⟨_, orExit_eq_ok.mpr ⟨cap, hp, orExit_eq_ok.mpr ⟨s₁, hs₁,
    orExit_eq_ok.mpr ⟨_, dif_pos hmem, rfl⟩⟩⟩, hperm, heff, ?_, ?_, hbound⟩
  · exact hinh.trans (Finset.insert_eq cap _ |>.trans (Finset.union_comm _ _))
  · change insert cap s₁.ambient = _
    rw [hamb, Finset.insert_eq, Finset.union_comm]

theorem grantable_of_addAmbient {sys : System} {p : Name} {s s' : CapSets ℕ}
    (h : addAmbient sys p s = .ok s') : ∃ cap, sys.capFromName p = some cap ∧ Grantable s cap := by
  obtain ⟨cap, hp, h⟩ := orExit_eq_ok.mp h
  obtain ⟨s₁, hs₁, h⟩ := orExit_eq_ok.mp h
  obtain ⟨_, hraise, -⟩ := orExit_eq_ok.mp h
  obtain ⟨hbound, -, -, hperm, -⟩ := CapSets.capset_eq_some hs₁
  have hcap := (Finset.mem_inter.mp (CapSets.mem_of_raiseAmbient hraise)).1
  exact ⟨cap, hp, hperm ▸ hcap, hbound (Finset.mem_insert_self cap _)⟩

theorem addAmbient_eq_ok {sys : System} {p : Name} {s s' : CapSets ℕ}
    (h : addAmbient sys p s = .ok s') :
    ∃ cap, sys.capFromName p = some cap ∧ Grantable s cap ∧ Grants s s' {cap} := by
  obtain ⟨cap, hname, hcap⟩ := grantable_of_addAmbient h
  obtain ⟨_, h', hgrants⟩ := addAmbient_of_grantable hname hcap
  cases h.symm.trans h'
  exact ⟨cap, hname, hcap, hgrants⟩

/-- The capabilities that the names stand for. -/
def named (sys : System) (ps : List Name) : Finset ℕ := (ps.filterMap sys.capFromName).toFinset

theorem named_cons {sys : System} {p : Name} {ps : List Name} {cap : ℕ}
    (hp : sys.capFromName p = some cap) : named sys (p :: ps) = {cap} ∪ named sys ps := by
  simp [named, hp]

/-- The loop gets through exactly if each name can be granted before the first iteration. -/
theorem addAmbients_ok_iff (sys : System) (ps : List Name) (s : CapSets ℕ) :
    (∃ s', addAmbients sys ps s = .ok s') ↔
      ∀ p ∈ ps, ∃ cap, sys.capFromName p = some cap ∧ Grantable s cap := by
  induction ps generalizing s with
  | nil => simp [addAmbients]
  | cons p ps ih =>
    rw [List.forall_mem_cons]
    constructor
    · rintro ⟨s', h⟩
      obtain ⟨s₁, hp, hps⟩ := bind_eq_ok_iff.mp h
      obtain ⟨cap, hname, hcap, hgrants⟩ := addAmbient_eq_ok hp
      refine ⟨⟨cap, hname, hcap⟩, fun q hq => ?_⟩
      obtain ⟨d, hd, hgrant⟩ := (ih s₁).mp ⟨s', hps⟩ q hq
      exact ⟨d, hd, (hgrants.grantable_iff hcap).mp hgrant⟩
    · rintro ⟨⟨cap, hname, hcap⟩, hps⟩
      obtain ⟨s₁, hp, hgrants⟩ := addAmbient_of_grantable hname hcap
      obtain ⟨s', h⟩ := (ih s₁).mpr fun q hq => by
        obtain ⟨d, hd, hgrant⟩ := hps q hq
        exact ⟨d, hd, (hgrants.grantable_iff hcap).mpr hgrant⟩
      exact ⟨s', bind_eq_ok_iff.mpr ⟨s₁, hp, h⟩⟩

theorem grants_of_addAmbients {sys : System} {ps : List Name} {s s' : CapSets ℕ}
    (h : addAmbients sys ps s = .ok s') : Grants s s' (named sys ps) := by
  induction ps generalizing s with
  | nil =>
    cases h
    exact .refl _
  | cons p ps ih =>
    obtain ⟨s₁, hp, hps⟩ := bind_eq_ok_iff.mp h
    obtain ⟨cap, hname, -, hgrants⟩ := addAmbient_eq_ok hp
    rw [named_cons hname]
    exact hgrants.trans (ih hps)

/-! ### A launch -/

/-- What the caller needs for a launch as `user` with the capabilities in `capList`. -/
structure Launchable (sys : System) (user capList : Name) (c : Creds) (pwd : Passwd) : Prop where
  root : c.euid = 0
  user_known : sys.getpwnam user = some pwd
  setpcap : capSetpcap ∈ c.caps.effective
  setgid : capSetgid ∈ c.caps.effective
  setuid : MaySetuid c pwd.uid
  grantable : ∀ p ∈ strtok capList, ∃ cap, sys.capFromName p = some cap ∧ Grantable c.caps cap

/-- The program that is executed has all IDs of the user. -/
structure RunsAs (sys : System) (user : Name) (pwd : Passwd) (c : Creds) : Prop where
  uids : c.ruid = pwd.uid ∧ c.euid = pwd.uid ∧ c.suid = pwd.uid
  gids : c.rgid = pwd.gid ∧ c.egid = pwd.gid ∧ c.sgid = pwd.gid
  groups : c.groups = sys.getgrouplist user pwd.gid

theorem main_eq_ok {sys : System} {user capList cmd : Name} {args : List Name} {c c' : Creds} :
    main sys (user :: capList :: cmd :: args) c = .ok c' ↔
      user ≠ "--help".toList ∧ ∃ pwd caps, c.euid = 0 ∧ sys.getpwnam user = some pwd ∧
        capSetpcap ∈ c.caps.effective ∧ capSetgid ∈ c.caps.effective ∧ MaySetuid c pwd.uid ∧
        addAmbients sys (strtok capList) c.caps = .ok caps ∧
        c' = ⟨pwd.uid, pwd.uid, pwd.uid, pwd.gid, pwd.gid, pwd.gid,
          sys.getgrouplist user pwd.gid, true, caps⟩ := by
  simp only [main, setAmbientCapabilities, guard_eq_ok_iff, orExit_eq_ok, bind_eq_ok_iff,
    setSecurebits_eq_some, not_not]
  constructor
  · rintro ⟨huser, hroot, _, ⟨hpcap, rfl⟩, c₁, hc₁, caps, hcaps, hok⟩
    obtain ⟨pwd, hpwd, hgid, huid, rfl⟩ := (setCredentials_eq_ok rfl).mp hc₁
    cases hok
    exact ⟨huser, pwd, caps, hroot, hpwd, hpcap, hgid, huid, hcaps, rfl⟩
  · rintro ⟨huser, pwd, caps, hroot, hpwd, hpcap, hgid, huid, hcaps, rfl⟩
    exact ⟨huser, hroot, _, ⟨hpcap, rfl⟩, _,
      (setCredentials_eq_ok rfl).mpr ⟨pwd, hpwd, hgid, huid, rfl⟩, caps, hcaps, rfl⟩

/-- A launch succeeds exactly if the caller is root with the privileges the system calls need and
with each listed capability to give away. The command then has the IDs and groups of the user. If
that user is not root and the command's file carries no privilege, the command can use exactly the
listed capabilities and those that were ambient before. -/
theorem cap_launcher_exact (sys : System) (user capList cmd : Name) (args : List Name) (c : Creds) :
    ((∃ c', main sys (user :: capList :: cmd :: args) c = .ok c') ↔
      user ≠ "--help".toList ∧ ∃ pwd, Launchable sys user capList c pwd) ∧
    ∀ c', main sys (user :: capList :: cmd :: args) c = .ok c' →
      ∃ pwd, sys.getpwnam user = some pwd ∧ RunsAs sys user pwd c' ∧
        Grants c.caps c'.caps (named sys (strtok capList)) ∧
        ∀ file : FileCaps ℕ, file.Plain → pwd.uid ≠ 0 →
          (execvp file c').permitted = c.caps.ambient ∪ named sys (strtok capList) ∧
          (execvp file c').effective = (execvp file c').permitted := by
  refine ⟨⟨?_, ?_⟩, ?_⟩
  · rintro ⟨c', h⟩
    obtain ⟨huser, pwd, caps, hroot, hpwd, hpcap, hgid, huid, hcaps, -⟩ := main_eq_ok.mp h
    exact ⟨huser, pwd, hroot, hpwd, hpcap, hgid, huid, (addAmbients_ok_iff ..).mp ⟨caps, hcaps⟩⟩
  · rintro ⟨huser, pwd, hl⟩
    obtain ⟨caps, hcaps⟩ := (addAmbients_ok_iff ..).mpr hl.grantable
    exact ⟨_, main_eq_ok.mpr ⟨huser, pwd, caps, hl.root, hl.user_known, hl.setpcap, hl.setgid,
      hl.setuid, hcaps, rfl⟩⟩
  · intro c' h
    obtain ⟨-, pwd, caps, -, hpwd, -, -, -, hcaps, rfl⟩ := main_eq_ok.mp h
    have hgrants := grants_of_addAmbients hcaps
    refine ⟨pwd, hpwd, ⟨⟨rfl, rfl, rfl⟩, ⟨rfl, rfl, rfl⟩, rfl⟩, hgrants, fun file hfile huid => ?_⟩
    rw [execvp, decide_eq_false huid]
    obtain ⟨hperm, heff⟩ := caps.exec_of_plain hfile
    exact ⟨hperm.trans hgrants.ambient, heff.trans hperm.symm⟩

end Tlpi.Cap.CapLauncher
