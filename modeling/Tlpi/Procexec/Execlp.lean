import Tlpi.Lib.StringArray

/-! `execlp()` of `procexec/execlp.c`: the argument vector that it builds, its search in `PATH` and
the shell that it tries for a script. The outcomes of `execve()` are given: `file i` is the error of
the call for the pathname tried as number `i`, and `shell i` that of the call for the shell behind
it, `none` for a call that succeeds and so does not return. -/

namespace Tlpi.Procexec
open Lib

inductive Errno
  | EACCES
  | ENOEXEC
  | ENOMEM
  | other (errno : ℕ)
  deriving DecidableEq

/-! ## The shell -/

def SHELL_PATH : List Char := "/bin/sh".toList

/-- What `execShScript()` does before it calls `execve()`: the indices of `argv` that it reads,
those of `shArgv` that it writes, and `shArgv` itself, with `none` for an undefined slot. -/
structure Script where
  size : ℕ
  loads : List ℕ
  stores : List ℕ
  shArgv : List (Option Slot)
  envp : List Slot
  deriving DecidableEq

def Script.start (argc : ℕ) (envp : List Slot) : Script :=
  ⟨argc + 1, [], [0], (List.replicate (argc + 1) none).set 0 (some (some SHELL_PATH)), envp⟩

def Script.copy (argv : List Slot) (s : Script) (j : ℕ) : Script :=
  { s with
    loads := s.loads ++ [j]
    stores := s.stores ++ [j + 1]
    shArgv := s.shArgv.set (j + 1) argv[j]? }

def execShScript (argc : ℕ) (argv envp : List Slot) : Script :=
  (List.range (argc + 1)).foldl (Script.copy argv) (Script.start argc envp)

/-! ## The search -/

/-- A pathname that is tried, with the size of its buffer. -/
structure Attempt where
  pathname : List Char
  size : ℕ
  argv : List Slot
  envp : List Slot
  fallback : Option Script
  deriving DecidableEq

/-- What `execlp()` returns, if it returns, with `errno`. -/
structure Result where
  ret : Option (ℤ × Errno)
  attempts : List Attempt
  deriving DecidableEq

section Search
variable (filename : List Char) (argc : ℕ) (argv envp : List Slot) (file shell : ℕ → Option Errno)

/-- One pathname, and the value of `savedErrno` if no program is running then. -/
def attempt (i : ℕ) (pathname : List Char) (size : ℕ) : Attempt × Option Errno :=
  match file i with
  | none => (⟨pathname, size, argv, envp, none⟩, none)
  | some savedErrno =>
    if savedErrno = .ENOEXEC then
      (⟨pathname, size, argv, envp, some (execShScript argc argv envp)⟩,
        (shell i).map fun _ => savedErrno)
    else (⟨pathname, size, argv, envp, none⟩, some savedErrno)

/-- `prEnd - prStart` -/
def prefixLength (prStart : List Char) : ℕ :=
  match strchr ':' prStart with
  | some prEnd => prEnd.1.length
  | none => prStart.length

def prefixPathname (prStart : List Char) : List Char :=
  (if prefixLength prStart = 0 then ['.'] else prStart.take (prefixLength prStart)) ++
    '/' :: filename

def searchLoop (i : ℕ) (fndEACCES : Bool) (prStart : List Char) : Result :=
  let a := attempt argc argv envp file shell i (prefixPathname filename prStart)
    (max 1 (prefixLength prStart) + filename.length + 2)
  match a.2 with
  | none => ⟨none, [a.1]⟩
  | some savedErrno =>
    let fndEACCES := fndEACCES || savedErrno == .EACCES
    match _h : prStart.drop (prefixLength prStart) with
    | [] => ⟨some (-1, if fndEACCES then .EACCES else savedErrno), [a.1]⟩
    | _ :: next =>
      let r := searchLoop (i + 1) fndEACCES next
      ⟨r.ret, a.1 :: r.attempts⟩
termination_by prStart.length
decreasing_by
  have hlength := congrArg List.length _h
  rw [List.length_drop, List.length_cons] at hlength
  omega

/-- The part of `execlp()` behind the building of its vectors; `p` is the value of `PATH`. -/
def tryExec (p : Option (List Char)) : Result :=
  match strchr '/' filename with
  | some _ =>
    let a := attempt argc argv envp file shell 0 filename (filename.length + 1)
    ⟨a.2.map (-1, ·), [a.1]⟩
  | none =>
    searchLoop filename argc argv envp file shell 0 false
      (if p.getD [] = [] then ['.'] else p.getD [])

end Search

/-! ## The vectors -/

/-- The slots of `calloc(n, sizeof(void *))` -/
def calloc (n : ℕ) : List Slot := List.replicate n none

def realloc (v : List Slot) (bytes : ℕ) : List Slot :=
  v.take (bytes / 8) ++ calloc (bytes / 8 - v.length)

structure Build where
  argv : List Slot
  argc : ℕ
  argvSize : ℕ
  deriving DecidableEq

def Build.start (arg : Slot) : Build := ⟨(calloc 100).set 0 arg, 1, 100⟩

def Build.full (b : Build) : Bool := b.argc + 1 ≥ b.argvSize

/-- The vector is given the size of one pointer. -/
def Build.resize (b : Build) : Build :=
  if b.full then { b with argvSize := b.argvSize + 100, argv := realloc b.argv 8 } else b

def Build.push (b : Build) (arg : Slot) : Build :=
  { b with argv := b.argv.set b.argc arg, argc := b.argc + 1 }

/-- How the loop ends: a slot or an argument that is not there is read, there is no memory, or the
null pointer is found, with the arguments that have not been read. -/
inductive Built
  | undefined
  | nomem
  | ended (b : Build) (argList : List Slot)
  deriving DecidableEq

/-- The states in which the loop tests its condition, and its end. -/
structure Building where
  tests : List Build
  built : Built
  deriving DecidableEq

def buildLoop (realloc : ℕ → Bool) (argList : List Slot) (b : Build) : Building :=
  match b.argv[b.argc - 1]? with
  | none => ⟨[b], .undefined⟩
  | some none => ⟨[b], .ended b argList⟩
  | some (some _) =>
    if b.full && !realloc b.argc then ⟨[b], .nomem⟩
    else
      match argList with
      | [] => ⟨[b], .undefined⟩
      | arg :: argList =>
        let r := buildLoop realloc argList (b.resize.push arg)
        ⟨b :: r.tests, r.built⟩

def copyEnviron (environ : List Slot) : List Slot :=
  let es := entries environ
  ((List.range es.length).foldl (fun envp j => envp.set j es[j]?) (calloc (es.length + 1))).set
    es.length none

/-- Whether the allocations succeed; `realloc` is given the number of arguments. -/
structure Allocs where
  argv : Bool
  realloc : ℕ → Bool
  envp : Bool

def execlp (filename : List Char) (arg : Slot) (argList environ : List Slot) (allocs : Allocs)
    (file shell : ℕ → Option Errno) : Option Result :=
  if allocs.argv then
    match (buildLoop allocs.realloc argList (Build.start arg)).built with
    | .undefined => none
    | .nomem => some ⟨some (-1, .ENOMEM), []⟩
    | .ended b _ =>
      if allocs.envp then
        some (tryExec filename b.argc b.argv (copyEnviron environ) file shell
          (getenv environ "PATH".toList))
      else some ⟨some (-1, .ENOMEM), []⟩
  else some ⟨some (-1, .ENOMEM), []⟩

end Tlpi.Procexec
