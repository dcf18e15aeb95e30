import Mathlib.Tactic
import Tlpi.Lib.Forest

/-! What the kernel tells a process about namespaces: the identity of the file that an open file
descriptor refers to, and the answers of the operations in ioctl_ns(2). The owner or the parent of
a namespace may be outside the scope of the caller; the operation then fails with `EPERM`. -/

namespace Tlpi.Namespaces
open Relation

structure NamespaceID where
  device : UInt64
  inode : UInt64
  deriving DecidableEq

instance : Finite NamespaceID :=
  Finite.of_injective (fun ns => (ns.device.toFin, ns.inode.toFin)) fun a b h => by
    obtain ⟨hd, hi⟩ := Prod.mk.inj h
    cases a
    cases b
    simp_all [UInt64.toFin_inj]

/-- The ID that no namespace has. -/
def invisUserNS : NamespaceID := ⟨0, 0⟩

inductive NsType
  | mnt | cgroup | uts | ipc | user | pid | net
  deriving DecidableEq

namespace NsType

-- `CLONE_NEW*`
def flag : NsType → ℕ
  | mnt => 0x00020000
  | cgroup => 0x02000000
  | uts => 0x04000000
  | ipc => 0x08000000
  | user => 0x10000000
  | pid => 0x20000000
  | net => 0x40000000

/-- The name of the symlink in `/proc/PID/ns`. -/
def symlink : NsType → String
  | mnt => "mnt"
  | cgroup => "cgroup"
  | uts => "uts"
  | ipc => "ipc"
  | user => "user"
  | pid => "pid"
  | net => "net"

end NsType

inductive Errno
  | EPERM | ENOENT | ESRCH | EACCES | EINVAL | EMFILE
  deriving DecidableEq

def Errno.text : Errno → String
  | EPERM => "operation not permitted"
  | ENOENT => "no such file or directory"
  | ESRCH => "no such process"
  | EACCES => "permission denied"
  | EINVAL => "invalid argument"
  | EMFILE => "too many open files"

/-- The namespaces and their relations, as far as they are visible to the caller. -/
structure Kernel where
  namespaces : Finset NamespaceID
  nsType : NamespaceID → NsType
  ownerUID : NamespaceID → ℕ
  getUserns : NamespaceID → Option NamespaceID
  getParent : NamespaceID → Option NamespaceID
  invisUserNS_notMem : invisUserNS ∉ namespaces
  getUserns_mem : ∀ ns q, getUserns ns = some q →
    ns ∈ namespaces ∧ q ∈ namespaces ∧ nsType q = .user
  getParent_mem : ∀ ns q, getParent ns = some q →
    ns ∈ namespaces ∧ q ∈ namespaces ∧ nsType q = nsType ns
  getUserns_acyclic : ∀ ns, ¬ TransGen (fun a b => getUserns a = some b) ns ns
  getParent_acyclic : ∀ ns, ¬ TransGen (fun a b => getParent a = some b) ns ns

inductive IoctlOp
  | NS_GET_USERNS | NS_GET_PARENT
  deriving DecidableEq

/-- What the file descriptor that the operation returns refers to. Only user and PID namespaces
have a parent. -/
def Kernel.ioctl (k : Kernel) (ns : NamespaceID) : IoctlOp → Except Errno NamespaceID
  | .NS_GET_USERNS =>
    match k.getUserns ns with
    | some q => .ok q
    | none => .error .EPERM
  | .NS_GET_PARENT =>
    if k.nsType ns = .user ∨ k.nsType ns = .pid then
      match k.getParent ns with
      | some q => .ok q
      | none => .error .EPERM
    else .error .EINVAL

end Tlpi.Namespaces
