import Tlpi.Lib.CString
import Tlpi.Lib.Outcome
import Tlpi.Lib.Strtol

/-! `parseEntrySpec()` and `parseACL()` of `acl/acl_update.c`, with `userIdFromName()` and
`groupIdFromName()` of `users_groups/ugid_functions.c`. The errors are what is written to
`stderr`. -/

namespace Tlpi.Acl
open Lib

def MAX_ENTRIES : ℕ := 10000

/-- `acl_tag_t`; a new entry has the tag `undefined`. -/
inductive Tag
  | undefined
  | userObj
  | user
  | groupObj
  | group
  | mask
  | other
  deriving DecidableEq

def ACL_READ : BitVec 3 := 4
def ACL_WRITE : BitVec 3 := 2
def ACL_EXECUTE : BitVec 3 := 1

/-- `perms` is a bit mask of the three constants. -/
structure AccessControlEntry where
  tag : Tag
  qual : BitVec 32
  perms : BitVec 3
  deriving DecidableEq

/-- The user and the group database. -/
structure Database where
  getpwnam : List Char → Option (BitVec 32)
  getgrnam : List Char → Option (BitVec 32)

/-- What `userIdFromName()` and `groupIdFromName()` do with the name and a database. -/
def idFromName (lookup : List Char → Option (BitVec 32)) (name : List Char) : BitVec 32 :=
  if name = [] then -1
  else if (strtol name 10).rest = [] then BitVec.ofInt 32 (strtol name 10).value
  else (lookup name).getD (-1)

def userIdFromName (db : Database) : List Char → BitVec 32 := idFromName db.getpwnam

def groupIdFromName (db : Database) : List Char → BitVec 32 := idFromName db.getgrnam

/-- The tag that a text stands for. -/
def tagOf (entryStr : List Char) (hasQual : Bool) : Except String Tag :=
  if entryStr = "u".toList ∨ entryStr = "user".toList then
    .ok (if hasQual then .user else .userObj)
  else if entryStr = "g".toList ∨ entryStr = "group".toList then
    .ok (if hasQual then .group else .groupObj)
  else if entryStr = "o".toList ∨ entryStr = "other".toList then .ok .other
  else if entryStr = "m".toList ∨ entryStr = "mask".toList then .ok .mask
  else .error ("Bad tag: " ++ String.ofList entryStr ++ "\n")

/-- The qualifier is only looked at for a named user or group. -/
def qualOf (db : Database) (tag : Tag) (qual : List Char) : Except String (BitVec 32) :=
  match tag with
  | .user =>
    if userIdFromName db qual = -1 then .error ("Bad user ID: " ++ String.ofList qual ++ "\n")
    else .ok (userIdFromName db qual)
  | .group =>
    if groupIdFromName db qual = -1 then .error ("Bad group ID: " ++ String.ofList qual ++ "\n")
    else .ok (groupIdFromName db qual)
  | _ => .ok 0

def permsOf (perms : BitVec 3) : List Char → Except String (BitVec 3)
  | [] => .ok perms
  | 'r' :: p => permsOf (perms ||| ACL_READ) p
  | 'w' :: p => permsOf (perms ||| ACL_WRITE) p
  | 'x' :: p => permsOf (perms ||| ACL_EXECUTE) p
  | '-' :: p => permsOf perms p
  | ch :: _ => .error ("Bad character in permissions string: " ++ String.singleton ch ++ "\n")

/-- `ace` is what is in the array before; without permissions its `perms` remain. -/
def parseEntrySpec (db : Database) (entryStr : List Char) (ace : AccessControlEntry)
    (permsReqd : Bool) : Except String AccessControlEntry :=
  match strchr ':' entryStr with
  | none => .error ("Missing initial colon in ACL entry: " ++ String.ofList entryStr ++ "\n")
  | some (tagStr, behind) =>
    let hasQual := behind ≠ [] ∧ behind.head? ≠ some ':'
    let colon2 := strchr ':' behind
    let permsStr := (colon2.map Prod.snd).getD []
    let hasPerms := permsStr ≠ []
    if hasPerms ∧ !permsReqd then .error "Cannot specify permissions here\n"
    else if ¬hasPerms ∧ permsReqd then .error "Must specify permissions\n"
    else do
      let tag ← tagOf tagStr hasQual
      let qual ← qualOf db tag ((colon2.map Prod.fst).getD behind)
      let perms ← (if hasPerms then permsOf 0 permsStr else .ok ace.perms)
      return ⟨tag, qual, perms⟩

/-- The loop of `parseACL()`; `n` entries have been parsed. -/
def parseEntries (db : Database) (aclist : ℕ → AccessControlEntry) (permsReqd : Bool)
    (nextEntry : List Char) (n : ℕ) : Except String (List AccessControlEntry) :=
  if MAX_ENTRIES ≤ n then .error "Too many entries in ACL\n"
  else
    match _h : strchr ',' nextEntry with
    | none => do
      let ace ← parseEntrySpec db nextEntry (aclist n) permsReqd
      return [ace]
    | some (entryStr, rest) => do
      let ace ← parseEntrySpec db entryStr (aclist n) permsReqd
      let aces ← parseEntries db aclist permsReqd rest (n + 1)
      return ace :: aces
termination_by nextEntry.length
decreasing_by exact strchr_length _h

/-- `aclist` is what is in the array before. -/
def parseACL (db : Database) (aclStr : List Char) (aclist : ℕ → AccessControlEntry)
    (permsReqd : Bool) : Except String (List AccessControlEntry) :=
  parseEntries db aclist permsReqd aclStr 0

theorem tagOf_defined (entryStr : List Char) (hasQual : Bool) :
    Ensures (· ≠ .undefined) (fun _ => True) (tagOf entryStr hasQual) := by
  unfold tagOf
  split_ifs <;> simp [Ensures]

theorem parseEntrySpec_defined (db : Database) (entryStr : List Char) (ace : AccessControlEntry)
    (permsReqd : Bool) :
    Ensures (·.tag ≠ .undefined) (fun _ => True) (parseEntrySpec db entryStr ace permsReqd) := by
  unfold parseEntrySpec
  split
  · trivial
  · dsimp only
    split
    · trivial
    · split
      · trivial
      · refine (tagOf_defined _ _).bind fun tag htag => ?_
        refine (ensures_true _).bind fun qual _ => ?_
        refine (ensures_true _).bind fun perms _ => ?_
        exact htag

/-- Every entry of the list has one of the six tags. -/
theorem parseEntries_defined (db : Database) (aclist : ℕ → AccessControlEntry) (permsReqd : Bool)
    (nextEntry : List Char) (n : ℕ) :
    Ensures (fun aces => ∀ ace ∈ aces, ace.tag ≠ .undefined) (fun _ => True)
      (parseEntries db aclist permsReqd nextEntry n) := by
  induction nextEntry, n using parseEntries.induct with
  | case1 nextEntry n h =>
    rw [parseEntries, if_pos h]
    trivial
  | case2 nextEntry n h hnone =>
    rw [parseEntries, if_neg h]
    split
    · refine (parseEntrySpec_defined _ _ _ _).bind fun ace hace => ?_
      exact List.forall_mem_singleton.mpr hace
    · rename_i hsome
      cases hnone.symm.trans hsome
  | case3 nextEntry n h entryStr rest hsome ih =>
    rw [parseEntries, if_neg h]
    split
    · rename_i hnone
      cases hnone.symm.trans hsome
    · rename_i entryStr' rest' hsome'
      cases hsome.symm.trans hsome'
      refine (parseEntrySpec_defined _ _ _ _).bind fun ace hace => ?_
      refine ih.bind fun aces haces => ?_
      exact List.forall_mem_cons.mpr ⟨hace, haces⟩

theorem parseACL_defined {db : Database} {aclStr : List Char} {aclist : ℕ → AccessControlEntry}
    {permsReqd : Bool} {entries : List AccessControlEntry}
    (h : parseACL db aclStr aclist permsReqd = .ok entries) :
    ∀ ace ∈ entries, ace.tag ≠ .undefined := by
  have hall := parseEntries_defined db aclist permsReqd aclStr 0
  rw [← parseACL, h] at hall
  exact hall

end Tlpi.Acl
