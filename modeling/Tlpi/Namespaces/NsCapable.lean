import Tlpi.Namespaces.Linux
import Tlpi.Lib.CString
import Tlpi.Lib.Fds
import Tlpi.Lib.Outcome
import Tlpi.Lib.Strtol

/-! `namespaces/ns_capable.c`: whether a process has capabilities in a namespace. The program walks
up the user namespaces with one file descriptor for each; user_namespaces(7) has the rule. -/

namespace Tlpi.Namespaces.NsCapable
open Lib Relation

/-! ## The rule -/

inductive Capabilities
  | inItsSets | all | none
  deriving DecidableEq

section Rule

variable {α : Type*} [DecidableEq α]

/-- The capabilities in `ns` of a process that is in `member` and has the effective user ID
`euid`. -/
def rule [Finite α] (F : Forest α) (owner : α → ℕ) (member : α) (euid : ℕ) (ns : α) :
    Capabilities :=
  if ns = member then .inItsSets
  else
    match _hup : F.up ns with
    | Option.none => .none
    | some p => if p = member ∧ owner ns = euid then .all else rule F owner member euid p
termination_by F.height ns
decreasing_by
  rw [Forest.height_of_up _hup]
  exact Nat.lt_succ_self _

variable [Finite α] {F : Forest α} {owner : α → ℕ} {member ns p d : α} {euid : ℕ}

theorem rule_self : rule F owner member euid member = .inItsSets := by
  rw [rule, if_pos rfl]

theorem rule_top (hne : ns ≠ member) (h : F.up ns = Option.none) :
    rule F owner member euid ns = .none := by
  rw [rule, if_neg hne]
  split
  · rfl
  · next h' => rw [h] at h'; cases h'

theorem rule_up (hne : ns ≠ member) (h : F.up ns = some p) :
    rule F owner member euid ns =
      if p = member ∧ owner ns = euid then .all else rule F owner member euid p := by
  rw [rule, if_neg hne]
  split
  · next h' => rw [h] at h'; cases h'
  · next h' =>
    rw [h] at h'
    obtain rfl := Option.some.inj h'
    rfl

/-- Induction on the distance to the topmost namespace. -/
theorem rule_outside (h : ¬ F.Below ns member) : rule F owner member euid ns = .none := by
  induction hn : F.height ns generalizing ns with
  | zero => exact absurd hn (F.height_pos ns).ne'
  | succ n ih =>
    have hne : ns ≠ member := by
      rintro rfl
      exact h (Forest.Below.refl ns)
    cases hup : F.up ns with
    | none => exact rule_top hne hup
    | some p =>
      have hp : ¬ F.Below p member := fun hp => h ((Forest.below_of_up hup).trans hp)
      have hpne : p ≠ member := by
        rintro rfl
        exact hp (Forest.Below.refl p)
      have hheight := Forest.height_of_up hup
      rw [rule_up hne hup, if_neg fun hand => hpne hand.1]
      exact ih hp (by omega)

theorem rule_child (h : F.up d = some member) :
    rule F owner member euid d = if owner d = euid then .all else .inItsSets := by
  have hne : d ≠ member := by
    rintro rfl
    exact Forest.not_below_of_up h (Forest.Below.refl d)
  rw [rule_up hne h, rule_self]
  simp

/-- Below the child of the process's namespace nothing is decided. -/
theorem rule_below (hd : F.Below ns d) (h : F.up d = some member) :
    rule F owner member euid ns = if owner d = euid then .all else .inItsSets := by
  induction hd using ReflTransGen.head_induction_on with
  | refl => exact rule_child h
  | head hup hpd ih =>
    next ns p =>
    have hne : ns ≠ member := by
      rintro rfl
      exact Forest.not_below_of_up hup (hpd.tail h)
    have hpne : p ≠ member := by
      rintro rfl
      exact Forest.not_below_of_up h hpd
    rw [rule_up hne hup, if_neg fun hand => hpne hand.1, ih]

end Rule

/-! ## The program -/

structure System where
  kernel : Kernel
  /-- Opens a namespace file. -/
  openNs : List Char → Except Errno NamespaceID
  /-- The content of a file `/proc/PID/status`. -/
  status : List Char → Except Errno (List Char)
  /-- The text for the capability sets of a process. -/
  caps : ℤ → Option (List Char)

/-- How the program ends early; `running` if it is still in the loop. -/
inductive Stop
  | usage
  | errExit (msg : String)
  | scanFailure (path : List Char)
  | uninitialised
  | running
  deriving DecidableEq

inductive IoctlError
  | EBADF
  | ns (e : Errno)
  deriving DecidableEq

abbrev Table := Fds NamespaceID

def openNs (s : System) (t : Table) (path : List Char) (msg : String) :
    Except Stop (ℕ × Table) :=
  match s.openNs path with
  | .error _ => .error (.errExit msg)
  | .ok ns => .ok (t.lowest, t.install ns)

def ioctl (k : Kernel) (t : Table) (fd : ℕ) (op : IoctlOp) : Except IoctlError (ℕ × Table) :=
  match t.file fd with
  | none => .error .EBADF
  | some ns =>
    match k.ioctl ns op with
    | .error e => .error (.ns e)
    | .ok q => .ok (t.lowest, t.install q)

def nsEqual (t : Table) (nsfd1 nsfd2 : ℕ) : Except Stop Bool :=
  match t.file nsfd1 with
  | none => .error (.errExit "fstat-nsfd1")
  | some sb1 =>
    match t.file nsfd2 with
    | none => .error (.errExit "fstat-nsfd2")
    | some sb2 => .ok (sb1.device == sb2.device && sb1.inode == sb2.inode)

def nsType (k : Kernel) (t : Table) (ns_fd : ℕ) : Except Stop ℕ :=
  match t.file ns_fd with
  | none => .error (.errExit "ioctl-NS_GET_NSTYPE")
  | some ns => .ok (k.nsType ns).flag

def owningUsernsOf (k : Kernel) (t : Table) (ns_fd : ℕ) : Except Stop (ℕ × Table) :=
  match ioctl k t ns_fd .NS_GET_USERNS with
  | .error _ => .error (.errExit "ioctl-NS_GET_USERNS")
  | .ok r => .ok r

/-- The owner as an `int`. -/
def uidOfUsernsOwner (k : Kernel) (t : Table) (userns_fd : ℕ) : Except Stop ℤ :=
  match t.file userns_fd with
  | none => .error (.errExit "ioctl-NS_GET_OWNER_UID")
  | some ns =>
    if k.nsType ns = .user then .ok ((k.ownerUID ns : ℤ).bmod (2 ^ 32))
    else .error (.errExit "ioctl-NS_GET_OWNER_UID")

/-- The lines that `fgets()` returns with a buffer of `size` bytes, where `line` has been read. -/
def fgetsLines (size : ℕ) : List Char → List Char → List (List Char)
  | line, [] => if line = [] then [] else [line]
  | line, ch :: text =>
    if ch = '\n' ∨ line.length + 1 = size - 1 then (line ++ [ch]) :: fgetsLines size [] text
    else fgetsLines size (line ++ [ch]) text

/-- `sscanf(line, "Uid: %*d %d %*d %*d", &uid)` for a line that starts with `Uid:`. -/
def scanUid (line : List Char) : Option ℤ :=
  let ruid := strtol (line.drop 4) 10
  let euid := strtol ruid.rest 10
  if ruid.rest = line.drop 4 ∨ euid.rest = ruid.rest then none
  else some (euid.value.bmod (2 ^ 32))

/-- The effective user ID as a `uid_t`. -/
def euidOfProcess (s : System) (pid : ℤ) : Except Stop ℤ :=
  let path := snprintf PATH_MAX ("/proc/".toList ++ decimal pid ++ "/status".toList)
  match s.status path with
  | .error _ => .error (.errExit "fopen-/proc/PID/status")
  | .ok text =>
    match (fgetsLines 1024 [] text).find? fun line => "Uid:".toList.isPrefixOf line with
    | none => .error (.scanFailure path)
    | some line =>
      match scanUid line with
      | none => .error .uninitialised
      | some uid => .ok (uid % 2 ^ 32)

/-- The text that `display_process_capabilities()` prints. -/
def displayProcessCapabilities (s : System) (pid : ℤ) : Except Stop (List Char) :=
  match s.caps pid with
  | none => .error (.errExit "cap_get_proc")
  | some caps => .ok caps

/-- The loop, with a bound on its iterations. -/
def searchAncestors (k : Kernel) : ℕ → Table → ℕ → ℕ → Except Stop (ℤ × Table)
  | 0, _, _, _ => .error .running
  | fuel + 1, t, desc_userns_fd, pid_userns_fd =>
    match ioctl k t desc_userns_fd .NS_GET_PARENT with
    | .error e =>
      if e ≠ .ns .EPERM then .error (.errExit "ioctl-NS_GET_PARENT") else .ok (-1, t)
    | .ok r =>
      match nsEqual r.2 r.1 pid_userns_fd with
      | .error e => .error e
      | .ok true => .ok (desc_userns_fd, r.2.close r.1)
      | .ok false => searchAncestors k fuel (r.2.close desc_userns_fd) r.1 pid_userns_fd

def targetUserns (k : Kernel) (t : Table) (ns_fd : ℕ) : Except Stop (ℕ × Table) := do
  let type ← nsType k t ns_fd
  if type = NsType.user.flag then .ok (ns_fd, t)
  else
    let r ← owningUsernsOf k t ns_fd
    .ok (r.1, r.2.close ns_fd)

/-- What the program finds out. -/
inductive Report
  | inTarget (caps : List Char)
  | notInAncestor
  | ownsChild
  | doesNotOwnChild (caps : List Char)
  deriving DecidableEq

def Report.text (pid_str : List Char) : Report → List Char
  | inTarget caps => "PID ".toList ++ pid_str ++ " is in the target namespace\n".toList ++
      "Subject to LSM checks, it has the following capabilities\n".toList ++
      "Capabilities: ".toList ++ caps ++ ['\n']
  | notInAncestor => "PID ".toList ++ pid_str ++ " is not in an ancestor namespace\n".toList ++
      "It has no capabilities in the target namespace\n".toList
  | ownsChild => "PID ".toList ++ pid_str ++ " is in an ancestor namespace\n".toList ++
      ("And its effective UID matches the owner of the immediate child user namespace\n" ++
        "of that namespace\n").toList ++
      "Subject to LSM checks, it has all capabilities in that namespace!\n".toList
  | doesNotOwnChild caps => "PID ".toList ++ pid_str ++ " is in an ancestor namespace\n".toList ++
      ("But its effective UID does not match the owner of the immediate child user namespace\n" ++
        "of that namespace\n").toList ++
      "Subject to LSM checks, it has the following capabilities\n".toList ++
      "Capabilities: ".toList ++ caps ++ ['\n']

def Report.capabilities : Report → Capabilities
  | inTarget _ => .inItsSets
  | notInAncestor => .none
  | ownsChild => .all
  | doesNotOwnChild _ => .inItsSets

/-- The end of the program, when the process is in an ancestor namespace. -/
def reportAncestor (s : System) (pid_str : List Char) (pid : ℤ) (desc_userns_fd : ℕ) (t : Table) :
    Except Stop (List Char) := do
  let owner ← uidOfUsernsOwner s.kernel t desc_userns_fd
  let euid ← euidOfProcess s pid
  -- the `int` is converted to the unsigned type of the other operand
  if owner % 2 ^ 32 = euid then .ok (Report.ownsChild.text pid_str)
  else
    let caps ← displayProcessCapabilities s pid
    .ok ((Report.doesNotOwnChild caps).text pid_str)

/-- What is printed, if the program does not end early. -/
def main (s : System) (fuel : ℕ) (t : Table) : List (List Char) → Except Stop (List Char)
  | [_, pid_str, file] => do
    let pid := atoi pid_str
    let ns ← openNs s t file "open-ns-file"
    let target ← targetUserns s.kernel ns.2 ns.1
    let path := snprintf PATH_MAX ("/proc/".toList ++ pid_str ++ "/ns/user".toList)
    let proc ← openNs s target.2 path "open-PID"
    if ← nsEqual proc.2 proc.1 target.1 then
      let caps ← displayProcessCapabilities s pid
      .ok ((Report.inTarget caps).text pid_str)
    else
      let desc ← searchAncestors s.kernel fuel proc.2 target.1 proc.1
      if desc.1 = -1 then .ok (Report.notInAncestor.text pid_str)
      else reportAncestor s pid_str pid desc.1.toNat desc.2
  | _ => .error .usage

/-! ## The walk -/

/-- The user namespaces and their parents. -/
def parents (k : Kernel) : Forest NamespaceID := ⟨k.getParent, k.getParent_acyclic⟩

section Walk

variable {k : Kernel} {t : Table} {fd fd' : ℕ} {ns ns' q : NamespaceID}

theorem nsEqual_eq (h : t.file fd = some ns) (h' : t.file fd' = some ns') :
    nsEqual t fd fd' = .ok (decide (ns = ns')) := by
  obtain ⟨dev, ino⟩ := ns
  obtain ⟨dev', ino'⟩ := ns'
  simp [nsEqual, h, h', NamespaceID.mk.injEq, Bool.decide_and, beq_eq_decide]

theorem ioctl_parent (h : t.file fd = some ns) (htype : k.nsType ns = .user)
    (hup : k.getParent ns = some q) :
    ioctl k t fd .NS_GET_PARENT = .ok (t.lowest, t.install q) := by
  simp [ioctl, h, Kernel.ioctl, htype, hup]

theorem ioctl_parent_top (h : t.file fd = some ns) (htype : k.nsType ns = .user)
    (hup : k.getParent ns = none) : ioctl k t fd .NS_GET_PARENT = .error (.ns .EPERM) := by
  simp [ioctl, h, Kernel.ioctl, htype, hup]

theorem nsType_of_below {d : NamespaceID} (h : (parents k).Below ns d) :
    k.nsType d = k.nsType ns := by
  induction h with
  | refl => rfl
  | tail _ hup ih => exact (k.getParent_mem _ _ hup).2.2.trans ih

theorem mem_of_below {d : NamespaceID} (hns : ns ∈ k.namespaces) (h : (parents k).Below ns d) :
    d ∈ k.namespaces := by
  induction h with
  | refl => exact hns
  | tail _ hup _ => exact (k.getParent_mem _ _ hup).2.1

/-- The descriptor of the child of `member` above `ns`, or `-1`. -/
def Found (k : Kernel) (ns member : NamespaceID) (ret : ℤ) (t : Table) : Prop :=
  (∃ (fd : ℕ) (d : NamespaceID), ret = fd ∧ t.file fd = some d ∧ (parents k).Below ns d ∧
    k.getParent d = some member) ∨
  (ret = -1 ∧ ∀ d, (parents k).Below ns d → k.getParent d ≠ some member)

theorem Found.up {member : NamespaceID} {ret : ℤ} (hup : k.getParent ns = some q)
    (hq : q ≠ member) (h : Found k q member ret t) : Found k ns member ret t := by
  have hbelow : (parents k).Below ns q := Forest.below_of_up hup
  rcases h with ⟨fd, d, hret, hfd, hqd, hd⟩ | ⟨hret, hnone⟩
  · exact .inl ⟨fd, d, hret, hfd, hbelow.trans hqd, hd⟩
  · refine .inr ⟨hret, ?_⟩
    intro d hd
    rcases (Forest.below_iff_of_up (F := parents k) hup).mp hd with rfl | hd
    · rw [hup]
      exact fun h => hq (Option.some.inj h)
    · exact hnone d hd

/-- Induction on the bound: each iteration goes up by one, with the descriptor of the namespace it
has come from closed. -/
theorem searchAncestors_found {member : NamespaceID} {fuel : ℕ}
    (hfuel : (parents k).height ns ≤ fuel) (htype : k.nsType ns = .user) (hne : fd ≠ fd')
    (h : t.file fd = some ns) (h' : t.file fd' = some member) :
    ∃ r, searchAncestors k fuel t fd fd' = .ok r ∧ Found k ns member r.1 r.2 := by
  induction fuel generalizing t fd ns with
  | zero => exact absurd hfuel (Nat.not_le.mpr ((parents k).height_pos ns))
  | succ fuel ih =>
    unfold searchAncestors
    cases hup : k.getParent ns with
    | none =>
      rw [ioctl_parent_top h htype hup]
      refine ⟨(-1, t), rfl, .inr ⟨rfl, ?_⟩⟩
      intro d hd
      rw [(Forest.below_iff_of_top (F := parents k) hup).mp hd, hup]
      exact nofun
    | some q =>
      have hq : (t.install q).file t.lowest = some q := Fds.file_install_lowest t q
      have hfd : (t.install q).file fd = some ns := Fds.file_install h q
      have hfd' : (t.install q).file fd' = some member := Fds.file_install h' q
      rw [ioctl_parent h htype hup]
      dsimp only
      rw [nsEqual_eq hq hfd']
      by_cases hqm : q = member
      · rw [decide_eq_true hqm]
        refine ⟨_, rfl, .inl ⟨fd, ns, rfl, ?_, Forest.Below.refl ns, hqm ▸ hup⟩⟩
        rw [Fds.file_close_of_ne _ (Fds.ne_lowest h)]
        exact hfd
      · rw [decide_eq_false hqm]
        have hheight := Forest.height_of_up (F := parents k) hup
        have hqtype : k.nsType q = .user := (k.getParent_mem _ _ hup).2.2.trans htype
        obtain ⟨r, hr, hfound⟩ := ih (by omega) hqtype (Ne.symm (Fds.ne_lowest h'))
          ((Fds.file_close_of_ne _ (Ne.symm (Fds.ne_lowest h))).trans hq)
          ((Fds.file_close_of_ne _ (Ne.symm hne)).trans hfd')
        exact ⟨r, hr, hfound.up hup hqm⟩

end Walk

/-! ## What the program is asked about -/

def procFile (pid : ℤ) (name : String) : List Char :=
  "/proc/".toList ++ decimal pid ++ name.toList

/-- The process `pid` is in the user namespace `member`, and its effective user ID is `euid`. -/
structure IsProcess (s : System) (pid : ℤ) (member : NamespaceID) (euid : ℕ) (caps : List Char) :
    Prop where
  pid_pos : 0 < pid
  pid_le : pid ≤ INT_MAX
  euid_lt : euid < 2 ^ 32
  userns : s.openNs (procFile pid "/ns/user") = .ok member
  status : ∃ (text : List Char) (ruid : ℕ) (rest : List Char), ruid < 2 ^ 32 ∧
    s.status (procFile pid "/status") = .ok text ∧
    (fgetsLines 1024 [] text).find? (fun line => "Uid:".toList.isPrefixOf line) =
      some ("Uid:".toList ++ '\t' :: (decimal ruid ++ '\t' :: (decimal euid ++ '\t' :: rest)))
  caps : s.caps pid = some caps

/-- The file is one of the user namespace `target`, or of another namespace that `target` owns. -/
def IsTarget (s : System) (file : List Char) (target : NamespaceID) : Prop :=
  ∃ ns, s.openNs file = .ok ns ∧
    ((s.kernel.nsType ns = .user ∧ ns ∈ s.kernel.namespaces ∧ target = ns) ∨
      (s.kernel.nsType ns ≠ .user ∧ s.kernel.getUserns ns = some target))

theorem scanUid_line {ruid euid : ℕ} (hr : ruid < 2 ^ 32) (he : euid < 2 ^ 32) (rest : List Char) :
    scanUid ("Uid:".toList ++ '\t' :: (decimal ruid ++ '\t' :: (decimal euid ++ '\t' :: rest))) =
      some ((euid : ℤ).bmod (2 ^ 32)) := by
  have htab : ∀ r : List Char, ∀ c ∈ ('\t' :: r).head?, c.isDigit = false := by
    rintro r c ⟨⟩
    decide
  have hspace : ∀ c ∈ ['\t'], isspace c = true := List.all_eq_true.mp rfl
  have hruid : strtol ('\t' :: (decimal ruid ++ '\t' :: (decimal euid ++ '\t' :: rest))) 10 =
      ⟨ruid, '\t' :: (decimal euid ++ '\t' :: rest), false⟩ :=
    strtol_space_decimal hspace (by unfold LONG_MIN; omega) (by unfold LONG_MAX; omega)
      (htab _)
  have heuid : strtol ('\t' :: (decimal euid ++ '\t' :: rest)) 10 = ⟨euid, '\t' :: rest, false⟩ :=
    strtol_space_decimal hspace (by unfold LONG_MIN; omega) (by unfold LONG_MAX; omega)
      (htab _)
  have hdrop : ("Uid:".toList ++ '\t' ::
      (decimal ruid ++ '\t' :: (decimal euid ++ '\t' :: rest))).drop 4 =
      '\t' :: (decimal ruid ++ '\t' :: (decimal euid ++ '\t' :: rest)) := rfl
  unfold scanUid
  rw [hdrop, hruid]
  dsimp only
  rw [heuid]
  dsimp only
  rw [if_neg]
  rintro (h | h)
  · have := congrArg List.length h
    simp at this
    omega
  · have := congrArg List.length h
    simp at this
    omega

/-- A `uid_t` that has been an `int` in between. -/
theorem uid_bmod {uid : ℕ} (h : uid < 2 ^ 32) : ((uid : ℤ).bmod (2 ^ 32)) % 2 ^ 32 = uid := by
  have hmod : ((uid : ℤ).bmod (2 ^ 32)) % 2 ^ 32 = (uid : ℤ) % 2 ^ 32 := Int.bmod_emod
  rw [hmod]
  omega

section Main

variable {s : System} {pid : ℤ} {member target : NamespaceID} {euid : ℕ} {caps file : List Char}

theorem length_procFile_lt (hpos : 0 < pid) (hle : pid ≤ INT_MAX) {name : String}
    (hname : name.toList.length ≤ 10) : (procFile pid name).length < PATH_MAX := by
  have hdec : (decimal pid).length ≤ 11 := length_decimal_le (by unfold INT_MIN; omega) hle
  have hlen : (procFile pid name).length = 6 + (decimal pid).length + name.toList.length := by
    show ("/proc/".toList ++ decimal pid ++ name.toList).length = _
    rw [List.length_append, List.length_append]
    rfl
  have hmax : PATH_MAX = 4096 := rfl
  omega

theorem euidOfProcess_eq (h : IsProcess s pid member euid caps) :
    euidOfProcess s pid = .ok (euid : ℤ) := by
  obtain ⟨text, ruid, rest, hruid, htext, hline⟩ := h.status
  have hpath : snprintf PATH_MAX ("/proc/".toList ++ decimal pid ++ "/status".toList) =
      procFile pid "/status" := snprintf_of_lt (length_procFile_lt h.pid_pos h.pid_le (by decide))
  unfold euidOfProcess
  dsimp only
  rw [hpath, htext]
  dsimp only
  rw [hline]
  dsimp only
  rw [scanUid_line hruid h.euid_lt]
  dsimp only
  rw [uid_bmod h.euid_lt]

/-- The descriptor of the target user namespace is open. -/
theorem targetUserns_eq (h : IsTarget s file target) (t : Table) :
    ∃ ns r, openNs s t file "open-ns-file" = .ok ns ∧ targetUserns s.kernel ns.2 ns.1 = .ok r ∧
      r.2.file r.1 = some target ∧ s.kernel.nsType target = .user ∧
      target ∈ s.kernel.namespaces := by
  obtain ⟨ns, hopen, hns⟩ := h
  have hfile : (t.install ns).file t.lowest = some ns := Fds.file_install_lowest t ns
  have hopenNs : openNs s t file "open-ns-file" = .ok (t.lowest, t.install ns) := by
    rw [openNs, hopen]
  have htype : nsType s.kernel (t.install ns) t.lowest = .ok (s.kernel.nsType ns).flag := by
    rw [nsType, hfile]
  rcases hns with ⟨huser, hmem, rfl⟩ | ⟨huser, howner⟩
  · refine ⟨_, (t.lowest, t.install target), hopenNs, ?_, hfile, huser, hmem⟩
    rw [targetUserns, htype, ok_bind, huser, if_pos rfl]
  · have hflag : (s.kernel.nsType ns).flag ≠ NsType.user.flag := by
      cases hty : s.kernel.nsType ns <;> simp_all [NsType.flag]
    have hioctl : owningUsernsOf s.kernel (t.install ns) t.lowest =
        .ok ((t.install ns).lowest, (t.install ns).install target) := by
      simp [owningUsernsOf, ioctl, hfile, Kernel.ioctl, howner]
    refine ⟨_, ((t.install ns).lowest, ((t.install ns).install target).close t.lowest), hopenNs, ?_,
      ?_, (s.kernel.getUserns_mem _ _ howner).2.2, (s.kernel.getUserns_mem _ _ howner).2.1⟩
    · rw [targetUserns, htype, ok_bind, if_neg hflag, hioctl]
      rfl
    · show Fds.file _ _ = _
      rw [Fds.file_close_of_ne _ (Ne.symm (Fds.ne_lowest hfile))]
      exact Fds.file_install_lowest _ _

/-- What the program is to report. -/
structure Reports (s : System) (member target : NamespaceID) (euid : ℕ) (caps : List Char)
    (rep : Report) : Prop where
  same : target = member → rep = .inTarget caps
  outside : ¬ (parents s.kernel).Below target member → rep = .notInAncestor
  child : ∀ d, (parents s.kernel).Below target d → s.kernel.getParent d = some member →
    rep = if s.kernel.ownerUID d = euid then .ownsChild else .doesNotOwnChild caps

/-- The reports say what the rule says. -/
theorem Reports.capabilities {rep : Report} (h : Reports s member target euid caps rep) :
    rep.capabilities = rule (parents s.kernel) s.kernel.ownerUID member euid target := by
  by_cases hbelow : (parents s.kernel).Below target member
  · rcases ReflTransGen.cases_tail hbelow with hsame | ⟨d, hd, hup⟩
    · rw [h.same hsame.symm, hsame, rule_self]
      rfl
    · rw [h.child d hd hup, rule_below hd hup]
      split_ifs <;> rfl
  · rw [h.outside hbelow, rule_outside hbelow]
    rfl

/-- Nothing is between a namespace and itself. -/
theorem reports_same : Reports s member member euid caps (.inTarget caps) where
  same _ := rfl
  outside h := absurd (Forest.Below.refl member) h
  child _ hd hup := absurd hd (Forest.not_below_of_up (F := parents s.kernel) hup)

theorem reports_outside (hne : target ≠ member)
    (h : ∀ d, (parents s.kernel).Below target d → s.kernel.getParent d ≠ some member) :
    Reports s member target euid caps .notInAncestor where
  same heq := absurd heq hne
  outside _ := rfl
  child d hd hup := absurd hup (h d hd)

theorem reports_child (hne : target ≠ member) {d : NamespaceID}
    (hd : (parents s.kernel).Below target d) (hup : s.kernel.getParent d = some member) :
    Reports s member target euid caps
      (if s.kernel.ownerUID d = euid then .ownsChild else .doesNotOwnChild caps) where
  same heq := absurd heq hne
  outside h := absurd (ReflTransGen.tail hd hup) h
  child d' hd' hup' := by rw [Forest.eq_of_below_siblings (F := parents s.kernel) hup hup' hd hd']

theorem height_le_namespaces {k : Kernel} (h : target ∈ k.namespaces) :
    (parents k).height target ≤ k.namespaces.card :=
  Forest.height_le_card fun _ hx => mem_of_below h hx

theorem reportAncestor_eq (hproc : IsProcess s pid member euid caps) {t : Table} {fd : ℕ}
    {d : NamespaceID} (hfd : t.file fd = some d) (htype : s.kernel.nsType d = .user)
    (howner : s.kernel.ownerUID d < 2 ^ 32) {pid_str : List Char} :
    reportAncestor s pid_str pid fd t = .ok
      ((if s.kernel.ownerUID d = euid then Report.ownsChild else .doesNotOwnChild caps).text
        pid_str) := by
  have huid : uidOfUsernsOwner s.kernel t fd = .ok ((s.kernel.ownerUID d : ℤ).bmod (2 ^ 32)) := by
    rw [uidOfUsernsOwner, hfd]
    exact if_pos htype
  have hcaps : displayProcessCapabilities s pid = .ok caps := by
    rw [displayProcessCapabilities, hproc.caps]
  rw [reportAncestor, huid, ok_bind, euidOfProcess_eq hproc, ok_bind, uid_bmod howner, hcaps,
    ok_bind]
  by_cases howns : s.kernel.ownerUID d = euid
  · rw [if_pos howns, if_pos (congrArg Nat.cast howns)]
  · rw [if_neg howns, if_neg (mt Nat.cast_inj.mp howns)]

theorem main_reports (hproc : IsProcess s pid member euid caps) (htarget : IsTarget s file target)
    (howner : ∀ ns, s.kernel.ownerUID ns < 2 ^ 32) {fuel : ℕ}
    (hfuel : s.kernel.namespaces.card ≤ fuel) (t : Table) (prog : List Char) :
    ∃ rep, main s fuel t [prog, decimal pid, file] = .ok (rep.text (decimal pid)) ∧
      Reports s member target euid caps rep := by
  obtain ⟨ns, r, hns, hr, hfile, htype, hmem⟩ := targetUserns_eq htarget t
  have hpid : atoi (decimal pid) = pid := by
    have hmin : INT_MIN ≤ pid := by
      have := hproc.pid_pos
      unfold INT_MIN
      omega
    have h := @atoi_decimal pid hmin hproc.pid_le [] (by simp)
    rwa [List.append_nil] at h
  have hpath : snprintf PATH_MAX ("/proc/".toList ++ decimal pid ++ "/ns/user".toList) =
      procFile pid "/ns/user" :=
    snprintf_of_lt (length_procFile_lt hproc.pid_pos hproc.pid_le (by decide))
  have hopen : openNs s r.2 (procFile pid "/ns/user") "open-PID" =
      .ok (r.2.lowest, r.2.install member) := by
    rw [openNs, hproc.userns]
  have hmember : (r.2.install member).file r.2.lowest = some member := Fds.file_install_lowest _ _
  have htgt : (r.2.install member).file r.1 = some target := Fds.file_install hfile member
  have hcaps : displayProcessCapabilities s pid = .ok caps := by
    rw [displayProcessCapabilities, hproc.caps]
  simp only [main, hns, hr, hpid, hpath, hopen, ok_bind, nsEqual_eq hmember htgt]
  by_cases heq : member = target
  · subst heq
    refine ⟨.inTarget caps, ?_, reports_same⟩
    simp [hcaps]
  · have hne : target ≠ member := Ne.symm heq
    obtain ⟨q, hq, ⟨fd, d, hret, hfd, hd, hup⟩ | ⟨hret, hnone⟩⟩ := searchAncestors_found
      ((height_le_namespaces hmem).trans hfuel) htype (Fds.ne_lowest hfile) htgt hmember
    · refine ⟨_, ?_, reports_child hne hd hup⟩
      have hfound : ¬ ((fd : ℤ) = -1) := by omega
      have hdtype : s.kernel.nsType d = .user := (nsType_of_below hd).trans htype
      simp only [heq, hq, hret, hfound, ok_bind, decide_false, Bool.false_eq_true, if_false,
        Int.toNat_natCast]
      exact reportAncestor_eq hproc hfd hdtype (howner d)
    · refine ⟨.notInAncestor, ?_, reports_outside hne hnone⟩
      simp [heq, hq, hret]

end Main

def initialNs : NamespaceID := ⟨4, 1⟩
def childNs : NamespaceID := ⟨4, 2⟩
def utsNs : NamespaceID := ⟨4, 3⟩

def childKernel : Kernel where
  namespaces := {initialNs, childNs, utsNs}
  nsType ns := if ns = utsNs then .uts else .user
  ownerUID ns := if ns = childNs then 1000 else 0
  getUserns ns := if ns = utsNs then some childNs else none
  getParent ns := if ns = childNs then some initialNs else none
  invisUserNS_notMem := by decide
  getUserns_mem ns q h := by
    split_ifs at h with h1
    subst h1; cases h; decide
  getParent_mem ns q h := by
    split_ifs at h with h1
    subst h1; cases h; decide
  getUserns_acyclic := by
    refine Forest.acyclic_of_lt (fun ns => ns.inode.toNat) fun ns q h => ?_
    split_ifs at h with h1
    subst h1; cases h; decide
  getParent_acyclic := by
    refine Forest.acyclic_of_lt (fun ns => ns.inode.toNat) fun ns q h => ?_
    split_ifs at h with h1
    subst h1; cases h; decide

def childSystem : System where
  kernel := childKernel
  openNs path := .ok (if path = "/proc/9/ns/uts".toList then utsNs else initialNs)
  status _ := .ok "Name:\tsh\nUid:\t0\t1000\t0\t0\n".toList
  caps _ := some "=".toList

theorem isProcess_child : IsProcess childSystem 7 initialNs 1000 "=".toList where
  pid_pos := by decide
  pid_le := by decide
  euid_lt := by decide
  userns := by decide
  status := ⟨_, 0, "0\t0\n".toList, by decide, rfl, by decide⟩
  caps := rfl

end Tlpi.Namespaces.NsCapable
