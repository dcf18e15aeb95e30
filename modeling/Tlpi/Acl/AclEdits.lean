import Tlpi.Acl.AclUpdate
import Tlpi.Lib.Keyed

/-! Which entries `acl/acl_update.c` changes. The entries of a list are told apart by their tags
and, for named users and groups, by their qualifiers. -/

namespace Tlpi.Acl
open Lib Lib.Faulty

abbrev Key := Tag × Option (BitVec 32)

def keyOf (tag : Tag) (qual : BitVec 32) : Key := (tag, if tag.named then some qual else none)

def Entry.key (e : Entry) : Key := keyOf e.tag e.qualifier

def AccessControlEntry.key (ace : AccessControlEntry) : Key := keyOf ace.tag ace.qual

/-- The permissions of the entries with the key. -/
def permsAt (key : Key) (acl : AclT) : List (BitVec 3) := (atKey Entry.key key acl).map Entry.perms

theorem has_iff_key (e : Entry) (ace : AccessControlEntry) :
    e.Has ace.tag ace.qual ↔ e.key = ace.key := by
  unfold Entry.Has Entry.key AccessControlEntry.key keyOf
  constructor
  · rintro ⟨htag, hqual⟩
    rw [← htag]
    by_cases hnamed : ace.tag.named
    · rw [hqual hnamed]
    · rw [if_neg hnamed, if_neg hnamed]
  · intro hkey
    obtain ⟨htag, hqual⟩ := Prod.mk.inj hkey
    refine ⟨htag.symm, ?_⟩
    intro hnamed
    rw [htag, if_pos hnamed, if_pos hnamed] at hqual
    exact (Option.some.inj hqual).symm

/-! ## One turn -/

/-- The entry that is added if there is none with the key. -/
def AccessControlEntry.entry (ace : AccessControlEntry) : Entry :=
  ⟨ace.tag, if ace.tag.named then ace.qual else ACL_UNDEFINED_ID, ace.perms⟩

theorem key_entry (ace : AccessControlEntry) : ace.entry.key = ace.key := by
  unfold Entry.key AccessControlEntry.key AccessControlEntry.entry keyOf
  by_cases hnamed : ace.tag.named
  · simp only [if_pos hnamed]
  · simp only [if_neg hnamed]

theorem edited_modifyACL (acl : AclT) (ace : AccessControlEntry) :
    edited .modifyACL acl ace =
      upsert Entry.key ace.key ({ · with perms := ace.perms }) ace.entry acl := by
  induction acl with
  | nil => rfl
  | cons e acl ih =>
    unfold edited at ih ⊢
    rw [upsert, List.findIdx?_cons]
    by_cases he : e.key = ace.key
    · rw [if_pos he, if_pos (decide_eq_true ((has_iff_key e ace).mpr he))]
      rfl
    · have hhas : ¬e.Has ace.tag ace.qual := mt (has_iff_key e ace).mp he
      rw [if_neg he, if_neg (by simpa using hhas), ← ih]
      cases acl.findIdx? (·.Has ace.tag ace.qual) <;> rfl

theorem edited_removeACL_key (acl : AclT) (ace : AccessControlEntry) :
    edited .removeACL acl ace = acl.eraseP (·.key = ace.key) := by
  rw [edited_removeACL]
  congr 1
  funext e
  exact decide_eq_decide.mpr (has_iff_key e ace)

theorem nodup_edited (operation : Operation) {acl : AclT} (h : (acl.map Entry.key).Nodup)
    (ace : AccessControlEntry) : ((edited operation acl ace).map Entry.key).Nodup := by
  cases operation with
  | modifyACL =>
    rw [edited_modifyACL]
    exact nodup_upsert (fun _ => rfl) (key_entry ace) h
  | removeACL =>
    rw [edited_removeACL_key]
    exact h.sublist (List.eraseP_sublist.map Entry.key)

/-- What is at the key of the entry behind the turn. -/
def Operation.result : Operation → AccessControlEntry → List (BitVec 3)
  | .modifyACL, ace => [ace.perms]
  | .removeACL, _ => []

theorem permsAt_edited (operation : Operation) {acl : AclT} (h : (acl.map Entry.key).Nodup)
    (ace : AccessControlEntry) (key : Key) :
    permsAt key (edited operation acl ace) =
      if key = ace.key then operation.result ace else permsAt key acl := by
  unfold permsAt
  by_cases hkey : key = ace.key
  · subst hkey
    rw [if_pos rfl]
    cases operation with
    | modifyACL =>
      rw [edited_modifyACL]
      obtain ⟨e, hone, he⟩ := atKey_upsert_self (f := ({ · with perms := ace.perms }))
        (fun _ => rfl) (key_entry ace) h
      rw [hone]
      rcases he with rfl | ⟨e', rfl⟩ <;> rfl
    | removeACL =>
      rw [edited_removeACL_key, atKey_eraseP_self h]
      rfl
  · rw [if_neg hkey]
    congr 1
    cases operation with
    | modifyACL =>
      rw [edited_modifyACL]
      exact atKey_upsert_of_ne (fun _ => rfl) (key_entry ace) hkey
    | removeACL =>
      rw [edited_removeACL_key]
      exact atKey_eraseP_of_ne hkey

theorem nodup_calcMask {acl : AclT} (h : (acl.map Entry.key).Nodup) :
    ((calcMask acl).map Entry.key).Nodup := by
  by_cases hmask : ∃ e ∈ acl, e.tag = .mask
  · rwa [map_calcMask hmask fun _ _ => rfl]
  · rw [calcMask, if_neg hmask, List.map_append]
    apply List.nodup_append.mpr
    refine ⟨h, List.nodup_singleton _, ?_⟩
    intro key hmem key' hmem' heq
    obtain ⟨e, he, rfl⟩ := List.mem_map.mp hmem
    have htag := congrArg Prod.fst (heq.trans (List.mem_singleton.mp hmem'))
    exact hmask ⟨e, he, htag⟩

theorem permsAt_calcMask (acl : AclT) {key : Key} (hkey : key.1 ≠ .mask) :
    permsAt key (calcMask acl) = permsAt key acl := by
  have hne : ∀ e : Entry, e.tag = .mask → e.key ≠ key := by
    intro e he heq
    exact hkey ((congrArg Prod.fst heq).symm.trans he)
  unfold permsAt calcMask
  split_ifs with hmask
  · rw [atKey_map]
    intro e
    by_cases he : e.tag = .mask
    · rw [if_pos he]
      exact .inr ⟨hne e he, hne _ he⟩
    · exact .inl (if_neg he)
  · unfold atKey
    rw [List.filter_append, List.filter_cons_of_neg (by simpa using hne _ rfl), List.filter_nil,
      List.append_nil]

theorem nodup_applied (opts : Options) {acl : AclT} (h : (acl.map Entry.key).Nodup)
    (ace : AccessControlEntry) : ((applied opts acl ace).map Entry.key).Nodup := by
  unfold applied
  split_ifs
  · exact nodup_calcMask (nodup_edited _ h ace)
  · exact nodup_edited _ h ace

theorem permsAt_applied (opts : Options) {acl : AclT} (h : (acl.map Entry.key).Nodup)
    (ace : AccessControlEntry) {key : Key} (hkey : opts.recalcMask = true → key.1 ≠ .mask) :
    permsAt key (applied opts acl ace) =
      if key = ace.key then opts.operation.result ace else permsAt key acl := by
  rw [← permsAt_edited opts.operation h ace key]
  unfold applied
  split_ifs with hrecalc
  · exact permsAt_calcMask _ (hkey hrecalc)
  · rfl

/-! ## The loop -/

theorem nodup_foldl (opts : Options) {acl : AclT} (h : (acl.map Entry.key).Nodup)
    (entries : List AccessControlEntry) :
    ((entries.foldl (applied opts) acl).map Entry.key).Nodup := by
  induction entries generalizing acl with
  | nil => exact h
  | cons ace entries ih => exact ih (nodup_applied opts h ace)

theorem permsAt_foldl (opts : Options) {acl : AclT} (h : (acl.map Entry.key).Nodup)
    (entries : List AccessControlEntry) {key : Key}
    (hkey : opts.recalcMask = true → key.1 ≠ .mask) :
    permsAt key (entries.foldl (applied opts) acl) =
      (lastAt AccessControlEntry.key key entries).elim (permsAt key acl) opts.operation.result := by
  apply foldl_lastAt (I := fun acl => (acl.map Entry.key).Nodup) _ _ h
  · exact fun acl ace h => nodup_applied opts h ace
  · exact fun acl ace h => permsAt_applied opts h ace hkey


section Loop

variable {File : Type} [DecidableEq File] {opts : Options} {entries : List AccessControlEntry}
  {file : File} {w w' : (File → AclType → AclT) × List Bool} {acl acl' : AclT}

theorem applyEntry_ok {ace : AccessControlEntry}
    (hok : applyEntry opts file acl ace w = .ok acl' w') :
    acl' = applied opts acl ace ∧ w'.1 file opts.type = acl' := by
  have hr := (applyEntry_commits opts file acl ace).of_ok hok
  obtain ⟨-, hcommit⟩ := Option.ite_none_right_eq_some.mp hr
  obtain ⟨hacl, hstored⟩ := Prod.mk.inj (Option.some.inj hcommit)
  refine ⟨hacl.symm, ?_⟩
  rw [← hstored, Function.update_self, Function.update_self, hacl]

theorem foldlM_applyEntry_ok (hstored : w.1 file opts.type = acl)
    (hok : entries.foldlM (applyEntry opts file) acl w = .ok acl' w') :
    acl' = entries.foldl (applied opts) acl ∧ w'.1 file opts.type = acl' := by
  induction entries generalizing acl w with
  | nil =>
    cases hok
    exact ⟨rfl, hstored⟩
  | cons ace entries ih =>
    rw [List.foldlM_cons] at hok
    obtain ⟨acl₁, w₁, hturn, hrest⟩ := bind_eq_ok hok
    obtain ⟨rfl, hstored₁⟩ := applyEntry_ok hturn
    exact ih hstored₁ hrest

theorem applyEntries_ok (hok : applyEntries opts entries file w = .ok acl w') :
    acl = entries.foldl (applied opts) (w.1 file opts.type) ∧ w'.1 file opts.type = acl := by
  obtain ⟨_, w₁, hcall, hok⟩ := bind_eq_ok hok
  obtain ⟨acl₀, w₂, hread, hok⟩ := bind_eq_ok hok
  cases hread
  have hsame : w.1 = w₁.1 := congrArg Prod.snd (Option.some.inj ((gives_call _).of_ok hcall))
  rw [hsame]
  exact foldlM_applyEntry_ok rfl hok

theorem applyEntries_append (entries entries' : List AccessControlEntry) :
    applyEntries opts (entries ++ entries') file =
      applyEntries opts entries file >>= entries'.foldlM (applyEntry opts file) := by
  unfold applyEntries
  simp only [List.foldlM_append, bind_assoc]

end Loop

theorem acl_update_edits {File : Type} [DecidableEq File] (opts : Options)
    (entries : List AccessControlEntry) (file : File)
    (w w' : (File → AclType → AclT) × List Bool) (acl : AclT)
    (hkeys : ((w.1 file opts.type).map Entry.key).Nodup)
    (hok : applyEntries opts entries file w = .ok acl w') :
    w'.1 file opts.type = acl ∧
    (∀ key : Key, (opts.recalcMask = true → key.1 ≠ .mask) →
      (opts.operation = .modifyACL → ∀ ace, lastAt AccessControlEntry.key key entries = some ace →
        permsAt key acl = [ace.perms]) ∧
      (opts.operation = .removeACL → key ∈ entries.map AccessControlEntry.key →
        permsAt key acl = []) ∧
      (key ∉ entries.map AccessControlEntry.key →
        permsAt key acl = permsAt key (w.1 file opts.type))) ∧
    ∀ done rest, entries = done ++ rest → ∃ acl₁ w₁,
      applyEntries opts done file w = .ok acl₁ w₁ ∧
      rest.foldlM (applyEntry opts file) acl₁ w₁ = .ok acl w' ∧
      w₁.1 file opts.type = acl₁ ∧ (acl₁.map Entry.key).Nodup := by
  obtain ⟨rfl, hstored⟩ := applyEntries_ok hok
  refine ⟨hstored, ?_, ?_⟩
  · intro key hkey
    rw [permsAt_foldl opts hkeys entries hkey]
    refine ⟨?_, ?_, ?_⟩
    · intro hop ace hlast
      rw [hlast, hop]
      rfl
    · intro hop hmem
      cases hlast : lastAt AccessControlEntry.key key entries with
      | none => exact absurd hmem (lastAt_eq_none_iff.mp hlast)
      | some ace =>
        rw [hop]
        rfl
    · intro hmem
      rw [lastAt_eq_none_iff.mpr hmem]
      rfl
  · intro done rest hsplit
    rw [hsplit, applyEntries_append] at hok
    obtain ⟨acl₁, w₁, hdone, hrest⟩ := bind_eq_ok hok
    obtain ⟨rfl, hstored₁⟩ := applyEntries_ok hdone
    exact ⟨_, w₁, hdone, hsplit ▸ hrest, hstored₁, nodup_foldl opts hkeys done⟩

/-- A named user is listed twice, and the mask is added. -/
theorem acl_update_edits_twice : ∃ acl w',
    applyEntries ⟨.modifyACL, true, .access⟩ [⟨.user, 1000, 6⟩, ⟨.groupObj, 0, 0⟩, ⟨.user, 1000, 4⟩]
      () (fun _ _ => [⟨.userObj, 0, 6⟩, ⟨.groupObj, 0, 4⟩, ⟨.other, 0, 4⟩], []) = .ok acl w' ∧
    permsAt (.user, some 1000) acl = [4] ∧ permsAt (.groupObj, none) acl = [0] ∧
    permsAt (.other, none) acl = [4] ∧ (acl.map Entry.key).Nodup := by
  refine ⟨_, _, rfl, ?_⟩
  obtain ⟨-, hperms, hsplit⟩ := acl_update_edits ⟨.modifyACL, true, .access⟩
    [⟨.user, 1000, 6⟩, ⟨.groupObj, 0, 0⟩, ⟨.user, 1000, 4⟩] ()
    (fun _ _ => [⟨.userObj, 0, 6⟩, ⟨.groupObj, 0, 4⟩, ⟨.other, 0, 4⟩], []) _ _ (by decide) rfl
  refine ⟨?_, ?_, ?_, ?_⟩
  · exact (hperms _ (by decide)).1 rfl ⟨.user, 1000, 4⟩ rfl
  · exact (hperms _ (by decide)).1 rfl ⟨.groupObj, 0, 0⟩ rfl
  · exact ((hperms _ (by decide)).2.2 (by decide)).trans rfl
  · obtain ⟨acl₁, w₁, hdone, hrest, -, hnodup⟩ := hsplit _ [] (List.append_nil _).symm
    cases hrest
    exact hnodup

end Tlpi.Acl
