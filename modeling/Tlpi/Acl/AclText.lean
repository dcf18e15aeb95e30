import Tlpi.Acl.ParseACL

/-! The text form of an ACL: what `parseACL()` of `acl/acl_update.c` accepts, and what it returns
for it. -/

namespace Tlpi.Acl
open Lib

/-- What the first field of an entry stands for. -/
inductive Kind
  | user
  | group
  | other
  | mask

def Kind.texts : Kind → List (List Char)
  | .user => ["u".toList, "user".toList]
  | .group => ["g".toList, "group".toList]
  | .other => ["o".toList, "other".toList]
  | .mask => ["m".toList, "mask".toList]

def Kind.tag (kind : Kind) (qual : List Char) : Tag :=
  match kind with
  | .user => if qual = [] then .userObj else .user
  | .group => if qual = [] then .groupObj else .group
  | .other => .other
  | .mask => .mask

/-- The ID of an entry, 0 if it does not have one. -/
def idOf (db : Database) (tag : Tag) (qual : List Char) : BitVec 32 :=
  match tag with
  | .user => userIdFromName db qual
  | .group => groupIdFromName db qual
  | _ => 0

def permBit (c : Char) : BitVec 3 :=
  if c = 'r' then ACL_READ else if c = 'w' then ACL_WRITE else if c = 'x' then ACL_EXECUTE else 0

/-- The union of the permissions named. -/
def permBits (perms : List Char) : BitVec 3 := perms.foldr (fun c bits => permBit c ||| bits) 0

def IsPerms (perms : List Char) : Prop := perms ≠ [] ∧ ∀ c ∈ perms, c ∈ ['r', 'w', 'x', '-']

/-- The fields of a piece; without permissions a second colon may be left out. -/
def Fields (permsReqd : Bool) (piece text qual perms : List Char) : Prop :=
  if permsReqd then piece = text ++ ':' :: (qual ++ ':' :: perms) ∧ IsPerms perms
  else piece = text ++ ':' :: qual ∨ piece = text ++ ':' :: (qual ++ [':'])

/-- The entry that a piece denotes, with the permissions `old` if there are none in it. -/
def Denotes (db : Database) (permsReqd : Bool) (old : BitVec 3) (piece : List Char)
    (ace : AccessControlEntry) : Prop :=
  ∃ (kind : Kind) (text qual perms : List Char), text ∈ kind.texts ∧ ':' ∉ qual ∧
    Fields permsReqd piece text qual perms ∧ idOf db (kind.tag qual) qual ≠ -1 ∧
    ace = ⟨kind.tag qual, idOf db (kind.tag qual) qual, if permsReqd then permBits perms else old⟩

/-! ## The fields -/

theorem tagOf_eq_ok_iff {text qual : List Char} {tag : Tag} :
    tagOf text (decide (qual ≠ [])) = .ok tag ↔
      ∃ kind : Kind, text ∈ kind.texts ∧ kind.tag qual = tag := by
  have hmem : ∀ kind : Kind, text ∈ kind.texts → tagOf text (decide (qual ≠ [])) =
      .ok (kind.tag qual) := by
    intro kind hkind
    by_cases hqual : qual = [] <;> cases kind <;>
      simp only [Kind.texts, List.mem_cons, List.not_mem_nil, or_false] at hkind <;>
      rcases hkind with rfl | rfl <;> simp [tagOf, Kind.tag, hqual]
  constructor
  · intro h
    have hkind : ∃ kind : Kind, text ∈ kind.texts := by
      unfold tagOf at h
      split_ifs at h with h1 _ h2 _ h3 h4
      · exact ⟨.user, by simpa [Kind.texts] using h1⟩
      · exact ⟨.user, by simpa [Kind.texts] using h1⟩
      · exact ⟨.group, by simpa [Kind.texts] using h2⟩
      · exact ⟨.group, by simpa [Kind.texts] using h2⟩
      · exact ⟨.other, by simpa [Kind.texts] using h3⟩
      · exact ⟨.mask, by simpa [Kind.texts] using h4⟩
    obtain ⟨kind, hkind⟩ := hkind
    rw [hmem kind hkind] at h
    exact ⟨kind, hkind, Except.ok.inj h⟩
  · rintro ⟨kind, hkind, rfl⟩
    exact hmem kind hkind

theorem qualOf_eq_ok_iff {db : Database} {tag : Tag} {qual : List Char} {id : BitVec 32} :
    qualOf db tag qual = .ok id ↔ idOf db tag qual ≠ -1 ∧ idOf db tag qual = id := by
  cases tag <;> simp [qualOf, idOf, guard_eq_ok_iff]

theorem permsOf_cons (acc : BitVec 3) {c : Char} (hc : c ∈ ['r', 'w', 'x', '-'])
    (perms : List Char) : permsOf acc (c :: perms) = permsOf (acc ||| permBit c) perms := by
  simp only [List.mem_cons, List.not_mem_nil, or_false] at hc
  have hzero : acc ||| permBit '-' = acc := BitVec.or_zero
  rcases hc with rfl | rfl | rfl | rfl
  · rfl
  · rfl
  · rfl
  · rw [hzero, permsOf]

theorem permsOf_error (acc : BitVec 3) {c : Char} (hc : c ∉ ['r', 'w', 'x', '-'])
    (perms : List Char) : ∃ msg, permsOf acc (c :: perms) = .error msg := by
  simp only [List.mem_cons, List.not_mem_nil, or_false, not_or] at hc
  obtain ⟨hr, hw, hx, hm⟩ := hc
  refine ⟨_, permsOf.eq_6 acc c perms ?_ ?_ ?_ ?_⟩
  · exact hr
  · exact hw
  · exact hx
  · exact hm

/-- Induction on the letters. -/
theorem permsOf_eq_ok_iff {perms : List Char} {acc bits : BitVec 3} :
    permsOf acc perms = .ok bits ↔
      (∀ c ∈ perms, c ∈ ['r', 'w', 'x', '-']) ∧ acc ||| permBits perms = bits := by
  induction perms generalizing acc with
  | nil =>
    have hzero : acc ||| permBits [] = acc := BitVec.or_zero
    simp [permsOf, hzero]
  | cons c perms ih =>
    have hbits : acc ||| permBits (c :: perms) = acc ||| permBit c ||| permBits perms :=
      (BitVec.or_assoc ..).symm
    rw [hbits, List.forall_mem_cons]
    by_cases hc : c ∈ ['r', 'w', 'x', '-']
    · rw [permsOf_cons acc hc, ih, and_iff_right hc]
    · obtain ⟨msg, herr⟩ := permsOf_error acc hc perms
      rw [herr]
      simp [hc]

/-! ## One piece -/

theorem Kind.not_mem {kind : Kind} {text : List Char} (h : text ∈ kind.texts) {c : Char}
    (hc : c.isLower = false) : c ∉ text := by
  have hlower : text.all Char.isLower = true := by
    cases kind <;> simp only [Kind.texts, List.mem_cons, List.not_mem_nil, or_false] at h <;>
      rcases h with rfl | rfl <;> decide
  intro hmem
  rw [List.all_eq_true.mp hlower c hmem] at hc
  cases hc

section Piece

variable {db : Database} {ace ace' : AccessControlEntry} {permsReqd : Bool}
  {text behind qual perms : List Char}

/-- The three fields, where the second colon and what is behind it may be missing. -/
theorem parseEntrySpec_fields (htext : ':' ∉ text) (hqual : ':' ∉ qual)
    (hbehind : behind = qual ∧ perms = [] ∨ behind = qual ++ ':' :: perms) :
    parseEntrySpec db (text ++ ':' :: behind) ace permsReqd = .ok ace' ↔
      (perms ≠ [] ↔ permsReqd = true) ∧
        ∃ tag, tagOf text (decide (qual ≠ [])) = .ok tag ∧
        ∃ id, qualOf db tag qual = .ok id ∧
        ∃ bits, (if perms ≠ [] then permsOf 0 perms else .ok ace.perms) = .ok bits ∧
          ⟨tag, id, bits⟩ = ace' := by
  have hcolon1 : strchr ':' (text ++ ':' :: behind) = some (text, behind) :=
    strchr_eq_some_iff.mpr ⟨rfl, htext⟩
  have hcolon2 : ((strchr ':' behind).map Prod.snd).getD [] = perms ∧
      ((strchr ':' behind).map Prod.fst).getD behind = qual ∧
      ((behind ≠ [] ∧ behind.head? ≠ some ':') ↔ qual ≠ []) := by
    rcases hbehind with ⟨rfl, rfl⟩ | rfl
    · rw [strchr_eq_none_iff.mpr hqual]
      refine ⟨rfl, rfl, ?_⟩
      rw [and_iff_left_iff_imp]
      intro _ hhead
      exact hqual (List.mem_of_mem_head? hhead)
    · rw [strchr_eq_some_iff.mpr ⟨rfl, hqual⟩]
      refine ⟨rfl, rfl, ?_⟩
      cases qual with
      | nil => simp
      | cons c t =>
        have hc : ¬ c = ':' := fun h => hqual (h ▸ List.mem_cons_self)
        simp [hc]
  obtain ⟨hperms, hfst, hhas⟩ := hcolon2
  unfold parseEntrySpec
  rw [hcolon1]
  simp only [hperms, hfst, hhas, guard_eq_ok_iff, bind_eq_ok_iff, pure, Except.pure,
    Except.ok.injEq]
  rw [← and_assoc]
  refine and_congr_left fun _ => ?_
  cases permsReqd <;> simp

/-- The text behind the first colon. -/
theorem exists_fields (behind : List Char) :
    ∃ qual perms, ':' ∉ qual ∧ (behind = qual ∧ perms = [] ∨ behind = qual ++ ':' :: perms) := by
  cases hcolon : strchr ':' behind with
  | none => exact ⟨behind, [], strchr_eq_none_iff.mp hcolon, .inl ⟨rfl, rfl⟩⟩
  | some fields =>
    obtain ⟨heq, hqual⟩ := strchr_eq_some_iff.mp hcolon
    exact ⟨fields.1, fields.2, hqual, .inr heq⟩

theorem parseEntrySpec_sound {piece : List Char}
    (h : parseEntrySpec db piece ace permsReqd = .ok ace') :
    Denotes db permsReqd ace.perms piece ace' := by
  cases hcolon : strchr ':' piece with
  | none =>
    rw [parseEntrySpec, hcolon] at h
    cases h
  | some fields =>
    obtain ⟨text, behind⟩ := fields
    obtain ⟨rfl, htext⟩ := strchr_eq_some_iff.mp hcolon
    obtain ⟨qual, perms, hqual, hbehind⟩ := exists_fields behind
    obtain ⟨hreqd, tag, htag, id, hid, bits, hbits, rfl⟩ :=
      (parseEntrySpec_fields htext hqual hbehind).mp h
    obtain ⟨kind, hkind, rfl⟩ := Iff.mp tagOf_eq_ok_iff htag
    obtain ⟨hne, rfl⟩ := Iff.mp qualOf_eq_ok_iff hid
    cases permsReqd with
    | true =>
      have hperms : perms ≠ [] := hreqd.mpr rfl
      rw [if_pos hperms] at hbits
      obtain ⟨hletters, hunion⟩ := Iff.mp permsOf_eq_ok_iff hbits
      have hbits' : permBits perms = bits := BitVec.zero_or.symm.trans hunion
      have hfields : behind = qual ++ ':' :: perms := by
        refine hbehind.resolve_left ?_
        rintro ⟨-, hnil⟩
        exact hperms hnil
      refine ⟨kind, text, qual, perms, hkind, hqual, ⟨?_, hperms, hletters⟩, hne, ?_⟩
      · rw [hfields]
      · rw [← hbits']
        rfl
    | false =>
      have hperms : perms = [] := by simpa using hreqd
      rw [if_neg (not_not.mpr hperms), Except.ok.injEq] at hbits
      refine ⟨kind, text, qual, perms, hkind, hqual, ?_, hne, ?_⟩
      · rcases hbehind with ⟨rfl, -⟩ | rfl
        · exact .inl rfl
        · exact .inr (by rw [hperms])
      · rw [← hbits]
        rfl

theorem parseEntrySpec_complete {piece : List Char}
    (h : Denotes db permsReqd ace.perms piece ace') :
    parseEntrySpec db piece ace permsReqd = .ok ace' := by
  obtain ⟨kind, text, qual, perms, hkind, hqual, hfields, hid, rfl⟩ := h
  have htext : ':' ∉ text := Kind.not_mem hkind rfl
  have htag : tagOf text (decide (qual ≠ [])) = .ok (kind.tag qual) :=
    Iff.mpr tagOf_eq_ok_iff ⟨kind, hkind, rfl⟩
  have hqualOf := Iff.mpr qualOf_eq_ok_iff ⟨hid, rfl⟩
  cases permsReqd with
  | true =>
    obtain ⟨rfl, hperms, hletters⟩ := hfields
    refine (parseEntrySpec_fields htext hqual (.inr rfl)).mpr
      ⟨iff_of_true hperms rfl, _, htag, _, hqualOf, permBits perms, ?_, rfl⟩
    rw [if_pos hperms, permsOf_eq_ok_iff]
    exact ⟨hletters, BitVec.zero_or⟩
  | false =>
    have hspec : ∀ behind, behind = qual ∧ ([] : List Char) = [] ∨ behind = qual ++ [':'] →
        parseEntrySpec db (text ++ ':' :: behind) ace false =
          .ok ⟨kind.tag qual, idOf db (kind.tag qual) qual, ace.perms⟩ := by
      intro behind hbehind
      exact (parseEntrySpec_fields htext hqual hbehind).mpr
        ⟨by simp, _, htag, _, hqualOf, ace.perms, by simp, rfl⟩
    rcases hfields with rfl | rfl
    · exact hspec qual (.inl ⟨rfl, rfl⟩)
    · exact hspec (qual ++ [':']) (.inr rfl)

end Piece

/-! ## The list -/

/-- Each piece denotes an entry; the index of a piece tells what is in the array before. -/
def DenotesAll (db : Database) (permsReqd : Bool) (aclist : ℕ → AccessControlEntry)
    (pieces : List (List Char × ℕ)) (entries : List AccessControlEntry) : Prop :=
  List.Forall₂ (fun piece ace => Denotes db permsReqd (aclist piece.2).perms piece.1 ace) pieces
    entries

section List

variable {db : Database} {aclist : ℕ → AccessControlEntry} {permsReqd : Bool}
  {nextEntry entryStr rest : List Char} {n : ℕ} {entries : List AccessControlEntry}

theorem parseEntries_last (h : strchr ',' nextEntry = none) :
    parseEntries db aclist permsReqd nextEntry n = .ok entries ↔
      n < MAX_ENTRIES ∧ ∃ ace, parseEntrySpec db nextEntry (aclist n) permsReqd = .ok ace ∧
        [ace] = entries := by
  rw [parseEntries, guard_eq_ok_iff, not_le]
  refine and_congr_right fun _ => ?_
  split
  · rw [bind_eq_ok_iff]
    simp only [pure, Except.pure, Except.ok.injEq]
  · rename_i hsome
    cases h.symm.trans hsome

theorem parseEntries_comma (h : strchr ',' nextEntry = some (entryStr, rest)) :
    parseEntries db aclist permsReqd nextEntry n = .ok entries ↔
      n < MAX_ENTRIES ∧ ∃ ace, parseEntrySpec db entryStr (aclist n) permsReqd = .ok ace ∧
        ∃ aces, parseEntries db aclist permsReqd rest (n + 1) = .ok aces ∧
          ace :: aces = entries := by
  rw [parseEntries, guard_eq_ok_iff, not_le]
  refine and_congr_right fun _ => ?_
  split
  · rename_i hnone
    cases hnone.symm.trans h
  · rename_i hsome
    cases hsome.symm.trans h
    simp only [bind_eq_ok_iff, pure, Except.pure, Except.ok.injEq]

end List

/-- Induction on the length of the text. -/
theorem parseEntries_eq_ok_iff (db : Database) (aclist : ℕ → AccessControlEntry)
    (permsReqd : Bool) (nextEntry : List Char) (n : ℕ) (entries : List AccessControlEntry) :
    parseEntries db aclist permsReqd nextEntry n = .ok entries ↔
      n + (nextEntry.splitOn ',').length ≤ MAX_ENTRIES ∧
        DenotesAll db permsReqd aclist ((nextEntry.splitOn ',').zipIdx n) entries := by
  have hspec : ∀ {piece : List Char} {n : ℕ} {ace : AccessControlEntry},
      parseEntrySpec db piece (aclist n) permsReqd = .ok ace ↔
        Denotes db permsReqd (aclist n).perms piece ace :=
    ⟨parseEntrySpec_sound, parseEntrySpec_complete⟩
  induction hlen : nextEntry.length using Nat.strong_induction_on generalizing
    nextEntry n entries with
  | h len ih =>
    cases hcomma : strchr ',' nextEntry with
    | none =>
      rw [parseEntries_last hcomma, splitOn_of_strchr_none hcomma]
      refine and_congr Iff.rfl ?_
      simp only [hspec, DenotesAll, List.zipIdx_singleton, List.forall₂_cons_left_iff,
        List.forall₂_nil_left_iff]
      constructor
      · rintro ⟨ace, hace, rfl⟩
        exact ⟨ace, [], hace, rfl, rfl⟩
      · rintro ⟨ace, _, hace, rfl, rfl⟩
        exact ⟨ace, hace, rfl⟩
    | some pieces =>
      obtain ⟨entryStr, rest⟩ := pieces
      have hrest : rest.length < len := hlen ▸ strchr_length hcomma
      rw [parseEntries_comma hcomma, splitOn_of_strchr_some hcomma]
      simp only [hspec, ih rest.length hrest rest _ _ rfl, DenotesAll, List.zipIdx_cons,
        List.forall₂_cons_left_iff, List.length_cons]
      constructor
      · rintro ⟨-, ace, hace, aces, ⟨hle, haces⟩, rfl⟩
        exact ⟨by omega, ace, aces, hace, haces, rfl⟩
      · rintro ⟨hle, ace, aces, hace, haces, rfl⟩
        exact ⟨by omega, ace, hace, aces, ⟨by omega, haces⟩, rfl⟩

/-! ## Printing -/

/-- The qualifier of an entry in decimal. -/
def qualText (ace : AccessControlEntry) : List Char :=
  match ace.tag with
  | .user => Nat.toDigits 10 ace.qual.toNat
  | .group => Nat.toDigits 10 ace.qual.toNat
  | _ => []

/-- Only a named user or group has an ID, and it is not the one that stands for an error. -/
def Proper (ace : AccessControlEntry) : Prop :=
  match ace.tag with
  | .undefined => False
  | .user => ace.qual ≠ -1
  | .group => ace.qual ≠ -1
  | _ => ace.qual = 0

/-- A text of an entry, with its permissions in any form. -/
structure Prints (ace : AccessControlEntry) (piece : List Char) : Prop where
  proper : Proper ace
  text : ∃ (kind : Kind) (text perms : List Char), text ∈ kind.texts ∧
    kind.tag (qualText ace) = ace.tag ∧ IsPerms perms ∧ permBits perms = ace.perms ∧
    piece = text ++ ':' :: (qualText ace ++ ':' :: perms)

/-- A number that fits into an ID is read back. -/
theorem idFromName_toDigits (lookup : List Char → Option (BitVec 32)) (id : BitVec 32) :
    idFromName lookup (Nat.toDigits 10 id.toNat) = id := by
  have hlt := id.isLt
  have hdecimal : Nat.toDigits 10 id.toNat = decimal (id.toNat : ℤ) := by
    rw [decimal, if_neg (Int.natCast_nonneg _).not_gt, Int.natAbs_natCast]
  have hmin : LONG_MIN ≤ (id.toNat : ℤ) := by
    unfold LONG_MIN
    omega
  have hmax : (id.toNat : ℤ) ≤ LONG_MAX := by
    unfold LONG_MAX
    omega
  have hstrtol := @strtol_decimal _ hmin hmax [] fun _ h => nomatch h
  rw [List.append_nil, ← hdecimal] at hstrtol
  rw [idFromName, if_neg Nat.toDigits_ne_nil, hstrtol, if_pos rfl, BitVec.ofInt_natCast,
    BitVec.ofNat_toNat, BitVec.setWidth_eq]

theorem idOf_qualText (db : Database) {ace : AccessControlEntry} (h : Proper ace) :
    idOf db ace.tag (qualText ace) = ace.qual ∧ ace.qual ≠ -1 := by
  have hzero : (0 : BitVec 32) ≠ -1 := by decide
  obtain ⟨tag, qual, perms⟩ := ace
  cases tag with
  | undefined => exact h.elim
  | user | group => exact ⟨idFromName_toDigits _ _, h⟩
  | userObj | groupObj | mask | other => exact ⟨h.symm, fun hq => hzero (h.symm.trans hq)⟩

theorem mem_qualText {ace : AccessControlEntry} {c : Char} (h : c ∈ qualText ace) :
    c.isDigit = true := by
  unfold qualText at h
  split at h
  · exact isDigit_of_mem_toDigits_ten c h
  · exact isDigit_of_mem_toDigits_ten c h
  · cases h

theorem Prints.denotes (db : Database) {ace : AccessControlEntry} {piece : List Char}
    (h : Prints ace piece) (old : BitVec 3) : Denotes db true old piece ace := by
  obtain ⟨kind, text, perms, hkind, htag, hperms, hbits, rfl⟩ := h.text
  obtain ⟨hid, hne⟩ := idOf_qualText db h.proper
  have hqual : ':' ∉ qualText ace := fun hmem => absurd (mem_qualText hmem) (by decide)
  refine ⟨kind, text, qualText ace, perms, hkind, hqual, ⟨rfl, hperms⟩, ?_, ?_⟩
  · rwa [htag, hid]
  · rw [htag, hid, hbits]
    rfl

theorem Prints.comma_not_mem {ace : AccessControlEntry} {piece : List Char}
    (h : Prints ace piece) : ',' ∉ piece := by
  obtain ⟨kind, text, perms, hkind, -, ⟨-, hletters⟩, -, rfl⟩ := h.text
  have htext : ',' ∉ text := Kind.not_mem hkind rfl
  have hqual : ',' ∉ qualText ace := fun hmem => absurd (mem_qualText hmem) (by decide)
  have hperms : ',' ∉ perms := fun hmem => absurd (hletters _ hmem) (by decide)
  simp [htext, hqual, hperms]

/-- The permissions with a letter or `-` for each. -/
def permText (perms : BitVec 3) : List Char :=
  [if perms &&& ACL_READ = 0 then '-' else 'r', if perms &&& ACL_WRITE = 0 then '-' else 'w',
    if perms &&& ACL_EXECUTE = 0 then '-' else 'x']

theorem permBits_permText (perms : BitVec 3) : permBits (permText perms) = perms := by
  revert perms
  decide

theorem isPerms_permText (perms : BitVec 3) : IsPerms (permText perms) := by
  refine ⟨List.cons_ne_nil _ _, ?_⟩
  intro c hc
  simp only [permText, List.mem_cons, List.not_mem_nil, or_false] at hc
  rcases hc with rfl | rfl | rfl <;> split_ifs <;> decide

theorem exists_prints {ace : AccessControlEntry} (h : Proper ace) : ∃ piece, Prints ace piece := by
  have hkind : ∃ (kind : Kind) (text : List Char), text ∈ kind.texts ∧
      kind.tag (qualText ace) = ace.tag := by
    obtain ⟨tag, qual, perms⟩ := ace
    have hdigits : Nat.toDigits 10 qual.toNat ≠ [] := Nat.toDigits_ne_nil
    cases tag with
    | undefined => exact h.elim
    | userObj => exact ⟨.user, _, List.mem_cons_self, rfl⟩
    | user => exact ⟨.user, _, List.mem_cons_self, if_neg hdigits⟩
    | groupObj => exact ⟨.group, _, List.mem_cons_self, rfl⟩
    | group => exact ⟨.group, _, List.mem_cons_self, if_neg hdigits⟩
    | mask => exact ⟨.mask, _, List.mem_cons_self, rfl⟩
    | other => exact ⟨.other, _, List.mem_cons_self, rfl⟩
  obtain ⟨kind, text, htext, htag⟩ := hkind
  exact ⟨_, h, kind, text, permText ace.perms, htext, htag, isPerms_permText _,
    permBits_permText _, rfl⟩

theorem denotesAll_prints (db : Database) (aclist : ℕ → AccessControlEntry)
    {entries : List AccessControlEntry} {pieces : List (List Char)}
    (h : List.Forall₂ Prints entries pieces) (n : ℕ) :
    DenotesAll db true aclist (pieces.zipIdx n) entries := by
  induction h generalizing n with
  | nil => exact .nil
  | cons hprints _ ih => exact .cons (hprints.denotes db _) (ih (n + 1))

theorem comma_not_mem_of_prints {entries : List AccessControlEntry} {pieces : List (List Char)}
    (h : List.Forall₂ Prints entries pieces) : ∀ piece ∈ pieces, ',' ∉ piece := by
  induction h with
  | nil => exact List.forall_mem_nil _
  | cons hprints _ ih => exact List.forall_mem_cons.mpr ⟨hprints.comma_not_mem, ih⟩

theorem parseACL_prints (db : Database) (aclist : ℕ → AccessControlEntry)
    {entries : List AccessControlEntry} {pieces : List (List Char)}
    (h : List.Forall₂ Prints entries pieces) (hne : entries ≠ [])
    (hlen : entries.length ≤ MAX_ENTRIES) :
    parseACL db ([','].intercalate pieces) aclist true = .ok entries := by
  have hsplit : ([','].intercalate pieces).splitOn ',' = pieces := by
    apply List.splitOn_intercalate _ (comma_not_mem_of_prints h)
    rintro rfl
    exact hne (List.forall₂_nil_right_iff.mp h)
  rw [parseACL, parseEntries_eq_ok_iff, hsplit, ← h.length_eq]
  exact ⟨by omega, denotesAll_prints db aclist h 0⟩

/-- `parseACL()` accepts the documented text, returns what it denotes, and reads back what has been
printed. -/
theorem parseACL_accepts_iff (db : Database) (aclist : ℕ → AccessControlEntry) :
    (∀ aclStr permsReqd entries, parseACL db aclStr aclist permsReqd = .ok entries ↔
      (aclStr.splitOn ',').length ≤ MAX_ENTRIES ∧
        entries.length = (aclStr.splitOn ',').length ∧
        DenotesAll db permsReqd aclist (aclStr.splitOn ',').zipIdx entries) ∧
    (∀ ace, Proper ace → ∃ piece, Prints ace piece) ∧
    ∀ entries pieces, entries ≠ [] → entries.length ≤ MAX_ENTRIES →
      List.Forall₂ Prints entries pieces →
      parseACL db ([','].intercalate pieces) aclist true = .ok entries := by
  refine ⟨?_, ?_, ?_⟩
  · intro aclStr permsReqd entries
    rw [parseACL, parseEntries_eq_ok_iff, Nat.zero_add]
    refine and_congr_right fun _ => ?_
    rw [iff_and_self]
    intro hall
    rw [← hall.length_eq, List.length_zipIdx]
  · intro ace hace
    exact exists_prints hace
  · intro entries pieces hne hlen h
    exact parseACL_prints db aclist h hne hlen

/-- Databases without names. -/
def noNames : Database := ⟨fun _ => none, fun _ => none⟩

/-- A named user and the mask. -/
theorem parseACL_accepts_iff_two :
    Prints ⟨.user, 1000, 6⟩ "u:1000:rw-".toList ∧ Prints ⟨.mask, 0, 0⟩ "mask::-".toList ∧
    parseACL noNames "u:1000:rw-,mask::-".toList (fun _ => ⟨.undefined, 0, 0⟩) true =
      .ok [⟨.user, 1000, 6⟩, ⟨.mask, 0, 0⟩] := by
  have hperms : ∀ {perms : List Char}, perms ≠ [] →
      perms.all (fun c => c ∈ ['r', 'w', 'x', '-']) = true → IsPerms perms :=
    fun hne hall => ⟨hne, fun c hc => of_decide_eq_true (List.all_eq_true.mp hall c hc)⟩
  have hdigits : qualText ⟨.user, 1000, 6⟩ = "1000".toList := by decide
  have huser : Prints ⟨.user, 1000, 6⟩ "u:1000:rw-".toList :=
    ⟨by show (1000 : BitVec 32) ≠ -1; decide, .user, "u".toList, "rw-".toList, List.mem_cons_self,
      by rw [hdigits]; rfl, hperms (by decide) rfl, rfl, by rw [hdigits]; rfl⟩
  have hmask : Prints ⟨.mask, 0, 0⟩ "mask::-".toList :=
    ⟨rfl, .mask, "mask".toList, "-".toList, by simp [Kind.texts], rfl, hperms (by decide) rfl, rfl,
      rfl⟩
  obtain ⟨-, -, hprint⟩ := parseACL_accepts_iff noNames fun _ => ⟨.undefined, 0, 0⟩
  refine ⟨huser, hmask, ?_⟩
  exact hprint _ ["u:1000:rw-".toList, "mask::-".toList] (by decide) (by decide)
    (.cons huser (.cons hmask .nil))

end Tlpi.Acl
