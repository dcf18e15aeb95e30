import Tlpi.Acl.ParseACL
import Tlpi.Lib.Faults

/-! `acl/acl_update.c` with the options `-m` and `-x`. Any call of libacl can fail, and the first
one that does ends the program. An `acl_t` is a list of entries, an `acl_entry_t` a position in
it. -/

namespace Tlpi.Acl
open Lib Lib.Faulty

/-! ## libacl -/

/-- An entry has a qualifier if it is for a named user or group. -/
structure Entry where
  tag : Tag
  qualifier : BitVec 32
  perms : BitVec 3
  deriving DecidableEq

abbrev AclT := List Entry

inductive AclType
  | access
  | default
  deriving DecidableEq

def ACL_UNDEFINED_ID : BitVec 32 := -1

def newEntry : Entry := ⟨.undefined, ACL_UNDEFINED_ID, 0⟩

def Tag.named (tag : Tag) : Prop := tag = .user ∨ tag = .group

instance (tag : Tag) : Decidable tag.named := inferInstanceAs (Decidable (_ ∨ _))

def qualifiers (tag : Tag) (acl : AclT) : List (BitVec 32) :=
  (acl.filter (·.tag = tag)).map Entry.qualifier

/-- What `acl_valid()` accepts. -/
def Valid (acl : AclT) : Prop :=
  (∀ tag ∈ [Tag.userObj, .groupObj, .other], acl.countP (·.tag = tag) = 1) ∧
    (∀ tag ∈ [Tag.user, .group], (qualifiers tag acl).Nodup) ∧
    ((∃ e ∈ acl, e.tag.named) → ∃ e ∈ acl, e.tag = .mask)

instance (acl : AclT) : Decidable (Valid acl) := inferInstanceAs (Decidable (_ ∧ _ ∧ _))

/-- The union of the permissions that the mask restricts. -/
def maskPerms (acl : AclT) : BitVec 3 :=
  ((acl.filter fun e => e.tag.named ∨ e.tag = .groupObj).map Entry.perms).foldl (· ||| ·) 0

/-- What `acl_calc_mask()` makes of the list. -/
def calcMask (acl : AclT) : AclT :=
  if ∃ e ∈ acl, e.tag = .mask then
    acl.map fun e => if e.tag = .mask then { e with perms := maskPerms acl } else e
  else acl ++ [⟨.mask, ACL_UNDEFINED_ID, maskPerms acl⟩]

/-! ## The program -/

section Program

variable {File : Type}

/-- A program that changes the lists stored with the files. -/
abbrev Run (File : Type) : Type → Type := Faulty (File → AclType → AclT)

/-- The loop of `findEntry()` from the position `i` on. -/
def findEntry (tag : Tag) (qaul : BitVec 32) : AclT → ℕ → Run File (Option ℕ)
  | [], _ => do
    call "acl_get_entry"
    return none
  | entry :: acl, i => do
    call "acl_get_entry"
    call "acl_get_tag_type"
    if tag = entry.tag then
      if tag.named then
        call "acl_get_qualifier"
        call "acl_free"
        if qaul = entry.qualifier then return some i
        else findEntry tag qaul acl (i + 1)
      else return some i
    else findEntry tag qaul acl (i + 1)

def addPerm (perms perm permset : BitVec 3) : Run File (BitVec 3) :=
  if perms &&& perm ≠ 0 then do
    call "acl_add_perm"
    return permset ||| perm
  else return permset

def setPerms (acl : AclT) (entry : ℕ) (perms : BitVec 3) : Run File AclT := do
  call "acl_get_permset"
  call "acl_clear_perms"
  let permset ← addPerm perms ACL_READ 0
  let permset ← addPerm perms ACL_WRITE permset
  let permset ← addPerm perms ACL_EXECUTE permset
  call "acl_set_permset"
  return acl.modify entry ({ · with perms := permset })

/-- The new entry is behind the others. -/
def createEntry (acl : AclT) (ace : AccessControlEntry) : Run File (AclT × ℕ) := do
  call "acl_create_entry"
  let acl := acl ++ [newEntry]
  let entry := acl.length - 1
  call "acl_set_tag_type"
  let acl := acl.modify entry ({ · with tag := ace.tag })
  if ace.tag.named then
    call "acl_set_qualifier"
    return (acl.modify entry ({ · with qualifier := ace.qual }), entry)
  else return (acl, entry)

/-- Whether the program was called with `-m` or with `-x`. -/
inductive Operation
  | modifyACL
  | removeACL
  deriving DecidableEq

structure Options where
  operation : Operation
  recalcMask : Bool
  type : AclType

def editEntry (opts : Options) (acl : AclT) (ace : AccessControlEntry) : Run File AclT := do
  let entry ← findEntry ace.tag ace.qual acl 0
  match opts.operation, entry with
  | .removeACL, some entry =>
    call "acl_delete_entry"
    return acl.eraseIdx entry
  | .removeACL, none => return acl
  | .modifyACL, some entry => setPerms acl entry ace.perms
  | .modifyACL, none =>
    let created ← createEntry acl ace
    setPerms created.1 created.2 ace.perms

def recalc (opts : Options) (acl : AclT) : Run File AclT :=
  if opts.recalcMask then do
    call "acl_calc_mask"
    return calcMask acl
  else return acl

def aclValid (acl : AclT) : Run File Unit :=
  if Valid acl then call "acl_valid" else throw "acl_valid"

variable [DecidableEq File]

def aclSetFile (file : File) (type : AclType) (acl : AclT) : Run File Unit := do
  call "acl_set_file"
  update fun stored => Function.update stored file (Function.update (stored file) type acl)

/-- One turn of the loop over `aclist`. -/
def applyEntry (opts : Options) (file : File) (acl : AclT) (ace : AccessControlEntry) :
    Run File AclT := do
  let acl ← editEntry opts acl ace
  let acl ← recalc opts acl
  aclValid acl
  aclSetFile file opts.type acl
  return acl

/-- What the program does with a file up to the end of the loop over `aclist`. -/
def applyEntries (opts : Options) (entries : List AccessControlEntry) (file : File) :
    Run File AclT := do
  call "acl_get_file"
  let acl ← read fun stored => stored file opts.type
  entries.foldlM (applyEntry opts file) acl

def updateFile (opts : Options) (entries : List AccessControlEntry) (file : File) :
    Run File Unit := do
  let _ ← applyEntries opts entries file
  call "acl_free"

/-- The loop over the file arguments. -/
def updateFiles (opts : Options) (entries : List AccessControlEntry) (files : List File) :
    Run File Unit :=
  files.forM (updateFile opts entries)

end Program

/-! ## What one turn does -/

def Entry.Has (e : Entry) (tag : Tag) (qaul : BitVec 32) : Prop :=
  tag = e.tag ∧ (tag.named → qaul = e.qualifier)

instance (e : Entry) (tag : Tag) (qaul : BitVec 32) : Decidable (e.Has tag qaul) :=
  inferInstanceAs (Decidable (_ ∧ (_ → _)))

/-- The list with the entry changed or deleted. -/
def edited (operation : Operation) (acl : AclT) (ace : AccessControlEntry) : AclT :=
  match operation, acl.findIdx? (·.Has ace.tag ace.qual) with
  | .removeACL, some entry => acl.eraseIdx entry
  | .removeACL, none => acl
  | .modifyACL, some entry => acl.modify entry ({ · with perms := ace.perms })
  | .modifyACL, none =>
    acl ++ [⟨ace.tag, if ace.tag.named then ace.qual else ACL_UNDEFINED_ID, ace.perms⟩]

def applied (opts : Options) (acl : AclT) (ace : AccessControlEntry) : AclT :=
  if opts.recalcMask then calcMask (edited opts.operation acl ace)
  else edited opts.operation acl ace

section Turn

variable {File : Type}

theorem findEntry_gives (tag : Tag) (qaul : BitVec 32) (acl : AclT) (i : ℕ) :
    Gives (findEntry tag qaul acl i : Run File _)
      ((acl.findIdx? (·.Has tag qaul)).map (· + i)) := by
  induction acl generalizing i with
  | nil => exact (gives_call _).bind (gives_pure none)
  | cons entry acl ih =>
    have hskip : ¬entry.Has tag qaul →
        ((entry :: acl).findIdx? (·.Has tag qaul)).map (· + i) =
          (acl.findIdx? (·.Has tag qaul)).map (· + (i + 1)) := by
      intro hnot
      rw [List.findIdx?_cons, if_neg (by simpa using hnot), Option.map_map]
      refine congrArg (Option.map · _) (funext fun j => ?_)
      show j + 1 + i = j + (i + 1)
      omega
    have hhere : entry.Has tag qaul →
        ((entry :: acl).findIdx? (·.Has tag qaul)).map (· + i) = some i := by
      intro hhas
      rw [List.findIdx?_cons, if_pos (by simpa using hhas), Option.map_some, Nat.zero_add]
    rw [findEntry]
    refine (gives_call _).bind ((gives_call _).bind ?_)
    by_cases htag : tag = entry.tag
    · rw [if_pos htag]
      by_cases hnamed : tag.named
      · rw [if_pos hnamed]
        refine (gives_call _).bind ((gives_call _).bind ?_)
        by_cases hqual : qaul = entry.qualifier
        · rw [if_pos hqual, hhere ⟨htag, fun _ => hqual⟩]
          exact gives_pure _
        · rw [if_neg hqual, hskip fun h => hqual (h.2 hnamed)]
          exact ih (i + 1)
      · rw [if_neg hnamed, hhere ⟨htag, fun h => absurd h hnamed⟩]
        exact gives_pure _
    · rw [if_neg htag, hskip fun h => htag h.1]
      exact ih (i + 1)

/-- A permission that is copied into a set. -/
def granted (perms perm permset : BitVec 3) : BitVec 3 :=
  if perms &&& perm ≠ 0 then permset ||| perm else permset

theorem granted_all : ∀ perms : BitVec 3, granted perms ACL_EXECUTE
    (granted perms ACL_WRITE (granted perms ACL_READ 0)) = perms := by
  decide

theorem addPerm_gives (perms perm permset : BitVec 3) :
    Gives (addPerm perms perm permset : Run File _) (granted perms perm permset) := by
  unfold addPerm granted
  by_cases h : perms &&& perm ≠ 0
  · rw [if_pos h, if_pos h]
    exact (gives_call _).bind (gives_pure _)
  · rw [if_neg h, if_neg h]
    exact gives_pure _

theorem setPerms_gives (acl : AclT) (entry : ℕ) (perms : BitVec 3) :
    Gives (setPerms acl entry perms : Run File _)
      (acl.modify entry ({ · with perms := perms })) := by
  refine (gives_call _).bind ((gives_call _).bind ?_)
  refine (addPerm_gives _ _ _).bind ((addPerm_gives _ _ _).bind ((addPerm_gives _ _ _).bind ?_))
  rw [granted_all]
  exact (gives_call _).bind (gives_pure _)

theorem modify_last (acl : AclT) (e : Entry) (f : Entry → Entry) :
    (acl ++ [e]).modify acl.length f = acl ++ [f e] := by
  induction acl with
  | nil => rfl
  | cons e' acl ih =>
    rw [List.cons_append, List.length_cons, List.modify_succ_cons, ih, List.cons_append]

theorem createEntry_gives (acl : AclT) (ace : AccessControlEntry) :
    Gives (createEntry acl ace : Run File _)
      (acl ++ [⟨ace.tag, if ace.tag.named then ace.qual else ACL_UNDEFINED_ID, 0⟩],
        acl.length) := by
  have hlast : (acl ++ [newEntry]).length - 1 = acl.length := by
    rw [List.length_append, List.length_singleton, Nat.add_sub_cancel]
  dsimp only [createEntry]
  rw [hlast, modify_last]
  refine (gives_call _).bind ((gives_call _).bind ?_)
  by_cases hnamed : ace.tag.named
  · rw [if_pos hnamed, if_pos hnamed, modify_last]
    exact (gives_call _).bind (gives_pure _)
  · rw [if_neg hnamed, if_neg hnamed]
    exact gives_pure _

theorem editEntry_gives (opts : Options) (acl : AclT) (ace : AccessControlEntry) :
    Gives (editEntry opts acl ace : Run File _) (edited opts.operation acl ace) := by
  have hfind := @findEntry_gives File ace.tag ace.qual acl 0
  refine hfind.bind ?_
  unfold edited
  cases opts.operation with
  | modifyACL =>
    cases acl.findIdx? (·.Has ace.tag ace.qual) with
    | some entry => exact setPerms_gives acl entry ace.perms
    | none =>
      refine (createEntry_gives acl ace).bind ?_
      have hset := @setPerms_gives File (acl ++ [⟨ace.tag,
        if ace.tag.named then ace.qual else ACL_UNDEFINED_ID, 0⟩]) acl.length ace.perms
      rwa [modify_last] at hset
  | removeACL =>
    cases acl.findIdx? (·.Has ace.tag ace.qual) with
    | some entry => exact (gives_call _).bind (gives_pure _)
    | none => exact gives_pure _

theorem recalc_gives (opts : Options) (acl : AclT) :
    Gives (recalc opts acl : Run File _) (if opts.recalcMask then calcMask acl else acl) := by
  unfold recalc
  split_ifs
  · exact (gives_call _).bind (gives_pure _)
  · exact gives_pure _

/-- A turn stores the list if it is valid and changes no file otherwise. -/
theorem applyEntry_commits [DecidableEq File] (opts : Options) (file : File) (acl : AclT)
    (ace : AccessControlEntry) :
    Commits (applyEntry opts file acl ace) fun stored =>
      if Valid (applied opts acl ace) then
        some (applied opts acl ace, Function.update stored file
          (Function.update (stored file) opts.type (applied opts acl ace)))
      else none := by
  refine (editEntry_gives opts acl ace).bind ((recalc_gives opts _).bind ?_)
  rw [← applied]
  by_cases hvalid : Valid (applied opts acl ace)
  · rw [aclValid, if_pos hvalid]
    simp only [if_pos hvalid]
    refine (gives_call _).bind (Commits.bind_pure (a := ()) ?_)
    exact (gives_call _).bind (commits_update _)
  · rw [aclValid, if_neg hvalid]
    simp only [if_neg hvalid]
    exact (commits_throw _).bind_none

end Turn

/-! ## Errors -/

section Errors

variable {File : Type} [DecidableEq File]

/-- The turn ends at once if its first call fails. -/
theorem applyEntry_fails (opts : Options) (file : File) (acl : AclT) (ace : AccessControlEntry)
    (stored : File → AclType → AclT) (faults : List Bool) :
    applyEntry opts file acl ace (stored, true :: faults) =
      .error "acl_get_entry" (stored, faults) := by
  cases acl <;> rfl

/-- Whether a list is valid depends on its tags and qualifiers. -/
theorem valid_congr {acl acl' : AclT}
    (h : acl.map (fun e => (e.tag, e.qualifier)) = acl'.map fun e => (e.tag, e.qualifier)) :
    Valid acl ↔ Valid acl' := by
  have hcount : ∀ tag, acl.countP (·.tag = tag) = acl'.countP (·.tag = tag) := by
    intro tag
    have hmap := congrArg (List.countP (·.1 = tag)) h
    rwa [List.countP_map, List.countP_map] at hmap
  have hquals : ∀ tag, qualifiers tag acl = qualifiers tag acl' := by
    intro tag
    have hmap := congrArg (fun ks => (ks.filter (·.1 = tag)).map Prod.snd) h
    simp only [List.filter_map, List.map_map] at hmap
    exact hmap
  have hexists : ∀ p : Tag → Prop, (∃ e ∈ acl, p e.tag) ↔ ∃ e ∈ acl', p e.tag := by
    intro p
    have hmem : ∀ l : AclT, (∃ e ∈ l, p e.tag) ↔
        ∃ k ∈ l.map fun e => (e.tag, e.qualifier), p k.1 := by
      intro l
      simp only [List.mem_map, exists_exists_and_eq_and]
    rw [hmem, h, ← hmem]
  unfold Valid
  simp only [hcount, hquals]
  rw [hexists Tag.named, hexists (· = .mask)]

/-- The tags and the qualifiers remain if there is a mask. -/
theorem map_calcMask {α : Type*} {acl : AclT} (hmask : ∃ e ∈ acl, e.tag = .mask) {f : Entry → α}
    (hf : ∀ e perms, f { e with perms := perms } = f e) : (calcMask acl).map f = acl.map f := by
  rw [calcMask, if_pos hmask, List.map_map]
  refine List.map_congr_left fun e _ => ?_
  rw [Function.comp_apply]
  split_ifs
  · exact hf e _
  · rfl

theorem valid_calcMask {acl : AclT} (hmask : ∃ e ∈ acl, e.tag = .mask) :
    Valid (calcMask acl) ↔ Valid acl :=
  valid_congr (map_calcMask hmask fun _ _ => rfl)

/-- The mask is the only entry that is recalculated. -/
theorem countP_calcMask (acl : AclT) {tag : Tag} (h : tag ≠ .mask) :
    (calcMask acl).countP (·.tag = tag) = acl.countP (·.tag = tag) := by
  unfold calcMask
  split_ifs
  · rw [List.countP_map]
    refine List.countP_congr fun e _ => ?_
    rw [Function.comp_apply]
    split_ifs <;> rfl
  · have hmask : ¬Tag.mask = tag := h.symm
    rw [List.countP_append, List.countP_singleton, if_neg (by simpa using hmask), Nat.add_zero]

/-- The entries that a valid list with the tag needs besides. -/
def others (tag : Tag) (perms : BitVec 3) : AclT :=
  ([Tag.userObj, .groupObj, .other, .mask].filter (· ≠ tag)).map (⟨·, ACL_UNDEFINED_ID, perms⟩)

theorem valid_others {tag : Tag} (h : tag ≠ .undefined) (qual : BitVec 32)
    (perms perms' : BitVec 3) : Valid (⟨tag, qual, perms⟩ :: others tag perms') := by
  cases tag
  case undefined => exact absurd rfl h
  all_goals exact of_decide_eq_true rfl

section Head

variable (ace : AccessControlEntry) (perms : BitVec 3) (acl : AclT)

theorem findIdx?_head :
    (⟨ace.tag, ace.qual, perms⟩ :: acl).findIdx? (·.Has ace.tag ace.qual) = some 0 := by
  rw [List.findIdx?_cons]
  exact if_pos (decide_eq_true ⟨rfl, fun _ => rfl⟩)

theorem edited_modify_head : edited .modifyACL (⟨ace.tag, ace.qual, perms⟩ :: acl) ace =
    ⟨ace.tag, ace.qual, ace.perms⟩ :: acl := by
  unfold edited
  rw [findIdx?_head]
  rfl

theorem edited_remove_head :
    edited .removeACL (⟨ace.tag, ace.qual, perms⟩ :: acl) ace = acl := by
  unfold edited
  rw [findIdx?_head]
  rfl

end Head

theorem mask_mem_others (tag : Tag) (qual : BitVec 32) (perms perms' : BitVec 3) :
    ∃ e ∈ (⟨tag, qual, perms⟩ : Entry) :: others tag perms', e.tag = .mask := by
  cases tag <;> exact of_decide_eq_true rfl

theorem calcMask_others (tag : Tag) (qual : BitVec 32) (perms : BitVec 3) :
    ∃ acl, calcMask (⟨tag, qual, perms⟩ :: others tag perms) = ⟨tag, qual, perms⟩ :: acl := by
  rw [calcMask, if_pos (mask_mem_others _ _ _ _), List.map_cons]
  refine ⟨_, congrArg (· :: _) ?_⟩
  by_cases htag : tag = .mask
  · subst htag
    have hunion : maskPerms (⟨.mask, qual, perms⟩ :: others .mask perms) = perms :=
      BitVec.zero_or
    rw [hunion]
    rfl
  · exact if_neg htag

/-- A list in which the entry is the first one and has other permissions. -/
def startAcl (ace : AccessControlEntry) : AclT :=
  ⟨ace.tag, ace.qual, ~~~ace.perms⟩ :: others ace.tag ace.perms

section Start

variable {opts : Options} {ace : AccessControlEntry} (hdefined : ace.tag ≠ .undefined)
include hdefined

theorem modify_startAcl (hop : opts.operation = .modifyACL) :
    Valid (applied opts (startAcl ace) ace) ∧ applied opts (startAcl ace) ace ≠ startAcl ace := by
  have hneg : ∀ perms : BitVec 3, perms ≠ ~~~perms := by decide
  have hvalid := valid_others hdefined ace.qual ace.perms ace.perms
  have hchanged : ∀ acl, (⟨ace.tag, ace.qual, ace.perms⟩ : Entry) :: acl ≠ startAcl ace := by
    intro acl heq
    exact hneg ace.perms (congrArg Entry.perms (List.cons.inj heq).1)
  rw [applied, hop, startAcl, edited_modify_head, ← startAcl]
  split_ifs
  · obtain ⟨acl, hacl⟩ := calcMask_others ace.tag ace.qual ace.perms
    refine ⟨(valid_calcMask (mask_mem_others _ _ _ _)).mpr hvalid, ?_⟩
    rw [hacl]
    exact hchanged acl
  · exact ⟨hvalid, hchanged _⟩

theorem remove_startAcl (hop : opts.operation = .removeACL)
    (htag : ace.tag ∉ [Tag.userObj, .groupObj, .other]) :
    Valid (applied opts (startAcl ace) ace) ∧ applied opts (startAcl ace) ace ≠ startAcl ace := by
  have hrest : ∀ tag ∉ [Tag.userObj, .groupObj, .other], tag ≠ .undefined →
      ∀ recalcMask : Bool, ∃ e acl, e.tag = .userObj ∧ Valid (e :: acl) ∧
        (if recalcMask then calcMask (others tag ace.perms) else others tag ace.perms) =
          e :: acl := by
    intro tag htag hdefined recalcMask
    cases tag
    case user | group | mask =>
      cases recalcMask <;> exact ⟨_, _, rfl, of_decide_eq_true rfl, rfl⟩
    all_goals simp at htag hdefined
  obtain ⟨e, acl, he, hvalid, heq⟩ := hrest ace.tag htag hdefined opts.recalcMask
  rw [applied, hop, startAcl, edited_remove_head, heq]
  refine ⟨hvalid, ?_⟩
  intro hsame
  have hhead := congrArg Entry.tag (List.cons.inj hsame).1
  rw [he] at hhead
  exact htag (hhead ▸ List.mem_cons_self)

/-- Some valid list is changed by the first turn. -/
theorem exists_changed
    (hnot : ¬(opts.operation = .removeACL ∧ ace.tag ∈ [Tag.userObj, .groupObj, .other])) :
    ∃ acl, Valid acl ∧ Valid (applied opts acl ace) ∧ applied opts acl ace ≠ acl := by
  refine ⟨startAcl ace, valid_others hdefined _ _ _, ?_⟩
  cases hop : opts.operation with
  | modifyACL => exact modify_startAcl hdefined hop
  | removeACL => exact remove_startAcl hdefined hop fun hmem => hnot ⟨hop, hmem⟩

end Start

theorem edited_removeACL (acl : AclT) (ace : AccessControlEntry) :
    edited .removeACL acl ace = acl.eraseP (·.Has ace.tag ace.qual) := by
  rw [List.eraseP_eq_eraseIdx]
  unfold edited
  cases acl.findIdx? (·.Has ace.tag ace.qual) <;> rfl

/-- Without one of the entries for the owner, the group and the others, the list is not valid. -/
theorem not_valid_applied {opts : Options} {acl : AclT} {ace : AccessControlEntry}
    (hop : opts.operation = .removeACL) (htag : ace.tag ∈ [Tag.userObj, .groupObj, .other])
    (hvalid : Valid acl) : ¬Valid (applied opts acl ace) := by
  have hbase : ∀ tag ∈ [Tag.userObj, .groupObj, .other], ¬tag.named ∧ tag ≠ .mask := by decide
  obtain ⟨hnamed, hmask⟩ := hbase ace.tag htag
  have hone := hvalid.1 ace.tag htag
  have hnone : (edited .removeACL acl ace).countP (·.tag = ace.tag) = 0 := by
    obtain ⟨e, he, hetag⟩ := List.countP_pos_iff.mp (hone ▸ Nat.one_pos)
    have hhas : e.Has ace.tag ace.qual :=
      ⟨(of_decide_eq_true hetag).symm, fun h => absurd h hnamed⟩
    obtain ⟨e', l₁, l₂, -, hhas', hacl, herased⟩ :=
      @List.exists_of_eraseP _ (·.Has ace.tag ace.qual) acl e he (decide_eq_true hhas)
    have htag' : e'.tag = ace.tag := (of_decide_eq_true hhas').1.symm
    rw [edited_removeACL, herased, List.countP_append]
    rw [hacl, List.countP_append, List.countP_cons, if_pos (decide_eq_true htag')] at hone
    omega
  have happlied : (applied opts acl ace).countP (·.tag = ace.tag) = 0 := by
    unfold applied
    rw [hop]
    split_ifs
    · rw [countP_calcMask _ hmask, hnone]
    · exact hnone
  intro hbad
  have hcount := hbad.1 ace.tag htag
  omega

/-! ## The loop -/

/-- What the program does with a file up to the end of the first turn. -/
def firstTurn (opts : Options) (ace : AccessControlEntry) (file : File) : Run File AclT := do
  call "acl_get_file"
  let acl ← read fun stored => stored file opts.type
  applyEntry opts file acl ace

theorem applyEntries_cons (opts : Options) (ace : AccessControlEntry)
    (entries : List AccessControlEntry) (file : File) :
    applyEntries opts (ace :: entries) file =
      firstTurn opts ace file >>= fun acl => entries.foldlM (applyEntry opts file) acl := by
  unfold applyEntries firstTurn
  simp only [List.foldlM_cons, bind_assoc]

theorem firstTurn_commits (opts : Options) (ace : AccessControlEntry) (file : File) :
    Commits (firstTurn opts ace file) fun stored =>
      if Valid (applied opts (stored file opts.type) ace) then
        some (applied opts (stored file opts.type) ace, Function.update stored file
          (Function.update (stored file) opts.type (applied opts (stored file opts.type) ace)))
      else none := by
  refine (gives_call _).bind ?_
  exact (reads_read fun stored : File → AclType → AclT => stored file opts.type).bind
    fun _ acl _ => applyEntry_commits opts file acl ace

variable {opts : Options} {entries : List AccessControlEntry} {file : File}
  {w w' : (File → AclType → AclT) × List Bool} {e : String}

/-- With one entry there is one commit. -/
theorem applyEntries_short (hlen : entries.length ≤ 1)
    (herror : applyEntries opts entries file w = .error e w') : w'.1 = w.1 := by
  match entries, hlen with
  | [], _ =>
    have hreads : Reads (applyEntries opts [] file) fun stored => some (stored file opts.type) := by
      refine (gives_call _).bind ?_
      exact (reads_read _).bind fun _ acl _ => gives_pure acl
    exact hreads.error_unchanged herror
  | [ace], _ =>
    rw [applyEntries_cons] at herror
    simp only [List.foldlM_nil, bind_pure] at herror
    exact (firstTurn_commits opts ace file).error_unchanged herror

/-- If the first turn makes the list invalid, nothing is stored. -/
theorem applyEntries_invalid {ace : AccessControlEntry}
    (hinvalid : ¬Valid (applied opts (w.1 file opts.type) ace))
    (herror : applyEntries opts (ace :: entries) file w = .error e w') : w'.1 = w.1 := by
  rw [applyEntries_cons] at herror
  rcases (firstTurn_commits opts ace file).safe w.1 w.2 with
    ⟨a, s', faults', hr, -⟩ | ⟨e', faults', herror'⟩
  · rw [if_neg hinvalid] at hr
    cases hr
  · rw [bind_error herror'] at herror
    cases herror
    rfl

/-- A list that the first turn has stored remains if the second turn fails. -/
theorem applyEntries_half {ace ace' : AccessControlEntry} {stored : File → AclType → AclT}
    (hvalid : Valid (applied opts (stored file opts.type) ace)) :
    ∃ faults, applyEntries opts (ace :: ace' :: entries) file (stored, faults) =
      .error "acl_get_entry" (Function.update stored file (Function.update (stored file) opts.type
        (applied opts (stored file opts.type) ace)), []) := by
  rw [applyEntries_cons]
  apply (firstTurn_commits opts ace file).error_behind (if_pos hvalid)
  intro faults
  rw [List.foldlM_cons]
  exact bind_error (applyEntry_fails opts file _ ace' _ faults)

/-- The lists of the other files remain. -/
theorem updateFiles_keeps {files : List File} (h : file ∉ files) :
    Keeps (fun stored : File → AclType → AclT => stored file)
      (updateFiles opts entries files) := by
  apply Keeps.forM
  intro file' hfile'
  have hne : file ≠ file' := fun heq => h (heq ▸ hfile')
  have hturn : ∀ acl ace, Keeps (fun stored : File → AclType → AclT => stored file)
      (applyEntry opts file' acl ace) := by
    intro acl ace
    apply (applyEntry_commits opts file' acl ace).keeps
    intro stored a stored' hr
    obtain ⟨-, hcommit⟩ := Option.ite_none_right_eq_some.mp hr
    cases hcommit
    exact Function.update_of_ne hne _ _
  refine Keeps.bind ?_ fun _ => (gives_call _).keeps_of_reads
  refine (gives_call _).keeps_of_reads.bind fun _ => ?_
  refine (reads_read _).keeps_of_reads.bind fun acl => ?_
  exact Keeps.foldlM fun acl ace _ => hturn acl ace

end Errors

theorem acl_update_atomic_iff {File : Type} [DecidableEq File] (db : Database)
    (aclSpec : List Char) (aclist : ℕ → AccessControlEntry) (opts : Options)
    (entries : List AccessControlEntry) (file : File)
    (hparse : parseACL db aclSpec aclist (opts.operation = .modifyACL) = .ok entries) :
    (∀ (stored : File → AclType → AclT) (faults : List Bool) (files : List File)
      (w w' : (File → AclType → AclT) × List Bool) (e : String),
      file ∉ files → Valid (stored file opts.type) →
      updateFiles opts entries files (stored, faults) = .ok () w →
      applyEntries opts entries file w = .error e w' → w'.1 file = stored file) ↔
    entries.length ≤ 1 ∨ (opts.operation = .removeACL ∧
      ∃ ace ∈ entries.head?, ace.tag ∈ [Tag.userObj, .groupObj, .other]) := by
  constructor
  · intro hatomic
    by_contra hcond
    push Not at hcond
    obtain ⟨hlong, hhead⟩ := hcond
    obtain ⟨ace, ace', rest, rfl⟩ : ∃ ace ace' rest, entries = ace :: ace' :: rest := by
      match entries, hlong with
      | ace :: ace' :: rest, _ => exact ⟨ace, ace', rest, rfl⟩
    have hdefined := parseACL_defined hparse ace List.mem_cons_self
    obtain ⟨acl, hvalid, hvalid', hchanged⟩ := @exists_changed opts ace hdefined
      fun h => hhead h.1 ace rfl h.2
    obtain ⟨faults, herror⟩ := @applyEntries_half File _ opts rest file ace ace'
      (fun _ _ => acl) hvalid'
    have hsame := hatomic (fun _ _ => acl) faults [] _ _ _ List.not_mem_nil hvalid rfl herror
    have hstored := congrFun hsame opts.type
    simp only [Function.update_self] at hstored
    exact hchanged hstored
  · intro hcond stored faults files w w' e hfile hvalid hbefore herror
    have hkept : w.1 file = stored file := updateFiles_keeps hfile _ _ _ hbefore
    have hsame : w'.1 = w.1 := by
      rcases hcond with hlen | ⟨hop, ace, hace, htag⟩
      · exact applyEntries_short hlen herror
      · obtain ⟨rest, rfl⟩ : ∃ rest, entries = ace :: rest := ⟨_, List.eq_cons_of_mem_head? hace⟩
        apply applyEntries_invalid _ herror
        rw [hkept]
        exact not_valid_applied hop htag hvalid
    rw [hsame, hkept]

theorem acl_update_atomic_iff_single :
    parseACL ⟨fun _ => none, fun _ => none⟩ "u:1000:rw".toList (fun _ => ⟨.other, 0, 0⟩) true =
      .ok [⟨.user, 1000, 6⟩] ∧
    ∀ (stored : Unit → AclType → AclT) (faults : List Bool)
      (w' : (Unit → AclType → AclT) × List Bool) (e : String), Valid (stored () .access) →
      applyEntries ⟨.modifyACL, true, .access⟩ [⟨.user, 1000, 6⟩] () (stored, faults) =
        .error e w' → w'.1 () = stored () := by
  have hparse : parseACL ⟨fun _ => none, fun _ => none⟩ "u:1000:rw".toList
      (fun _ => ⟨.other, 0, 0⟩) true = .ok [⟨.user, 1000, 6⟩] := by decide +kernel
  refine ⟨hparse, ?_⟩
  intro stored faults w' e hvalid herror
  exact (acl_update_atomic_iff _ _ _ ⟨.modifyACL, true, .access⟩ _ () hparse).mpr (.inl le_rfl)
    stored faults [] _ w' e List.not_mem_nil hvalid rfl herror

/-- `acl_update -n -m o::r,u:1000:rw` on a file without a mask stores the first entry and ends with
an error at the second. -/
theorem acl_update_half_applied :
    parseACL ⟨fun _ => none, fun _ => none⟩ "o::r,u:1000:rw".toList (fun _ => ⟨.other, 0, 0⟩) true =
      .ok [⟨.other, 0, 4⟩, ⟨.user, 1000, 6⟩] ∧
    Valid [⟨.userObj, 0, 6⟩, ⟨.groupObj, 0, 4⟩, ⟨.other, 0, 0⟩] ∧
    ∃ w', applyEntries ⟨.modifyACL, false, .access⟩ [⟨.other, 0, 4⟩, ⟨.user, 1000, 6⟩] ()
        (fun _ _ => [⟨.userObj, 0, 6⟩, ⟨.groupObj, 0, 4⟩, ⟨.other, 0, 0⟩], []) =
          .error "acl_valid" w' ∧
      w'.1 () .access = [⟨.userObj, 0, 6⟩, ⟨.groupObj, 0, 4⟩, ⟨.other, 0, 4⟩] := by
  exact ⟨by decide +kernel, by decide, _, rfl, rfl⟩

end Tlpi.Acl
