import Tlpi.Lib.CHeap
import Tlpi.Lib.Strtol

/-! `itimerspecFromStr()` of `timers/itimerspec_from_str.c`, which cuts a copy of its argument into
up to four decimals. The cut at the colon comes first, so that the first search for a slash does not
find one that belongs to the interval. -/

namespace Tlpi.Timers
open Lib Lib.CHeap

structure Timespec where
  tv_sec : ℤ
  tv_nsec : ℤ
  deriving DecidableEq

structure Itimerspec where
  it_value : Timespec
  it_interval : Timespec
  deriving DecidableEq

def atoiAt (h : Heap) (p : Ptr) : Option ℤ := (string h p).map atoi

/-- The search for a slash, the cut and the calls of `atoi()` for one of the two times. -/
def timespecAt (h : Heap) (p : Ptr) : Option (Heap × Timespec) := do
  match ← strchr h p '/' with
  | none => return (h, ⟨← atoiAt h p, 0⟩)
  | some sptr =>
    let h ← store h sptr '\x00'
    return (h, ⟨← atoiAt h p, ← atoiAt h (sptr.add 1)⟩)

def itimerspecFromStr (h : Heap) (str : Ptr) : Option (Heap × Itimerspec) := do
  let (h, dupstr) ← strdup h str
  match ← strchr h dupstr ':' with
  | none =>
    let (h, value) ← timespecAt h dupstr
    return (free h dupstr, ⟨value, ⟨0, 0⟩⟩)
  | some cptr =>
    let h ← store h cptr '\x00'
    let (h, value) ← timespecAt h dupstr
    let (h, interval) ← timespecAt h (cptr.add 1)
    return (free h dupstr, ⟨value, interval⟩)

/-! ## Texts -/

/-- Seconds, and nanoseconds that may be left out. -/
structure TimeText where
  sec : ℕ
  nsec : Option ℕ
  sec_le : (sec : ℤ) ≤ INT_MAX
  nsec_le : ∀ n ∈ nsec, n ≤ 999999999

def TimeText.text (t : TimeText) : List Char :=
  match t.nsec with
  | none => decimal t.sec
  | some n => decimal t.sec ++ '/' :: decimal n

structure SpecText where
  value : TimeText
  interval : Option TimeText

def SpecText.text (t : SpecText) : List Char :=
  match t.interval with
  | none => t.value.text
  | some i => t.value.text ++ ':' :: i.text

/-- The numbers that a text denotes, where those left out are 0. -/
def SpecText.numbers (t : SpecText) : ℕ × ℕ × ℕ × ℕ :=
  (t.value.sec, t.value.nsec.getD 0, (t.interval.map TimeText.sec).getD 0,
    (t.interval.bind TimeText.nsec).getD 0)

def itimerspec (numbers : ℕ × ℕ × ℕ × ℕ) : Itimerspec :=
  ⟨⟨numbers.1, numbers.2.1⟩, ⟨numbers.2.2.1, numbers.2.2.2⟩⟩

theorem itimerspec_injective : Function.Injective itimerspec := by
  rintro ⟨a, b, c, d⟩ ⟨a', b', c', d'⟩ h
  simpa [itimerspec, and_assoc] using h

/-! ## One time -/

theorem notMem_decimal {c : Char} (hminus : c ≠ '-') (hdigit : c.isDigit = false) (z : ℤ) :
    c ∉ decimal z := by
  intro hc
  rcases mem_decimal hc with rfl | h
  · exact hminus rfl
  · rw [h] at hdigit
    cases hdigit

theorem colon_notMem (t : TimeText) : ':' ∉ t.text := by
  have hdecimal := notMem_decimal (c := ':') (by decide) (by decide)
  unfold TimeText.text
  split
  · exact hdecimal _
  · simp [hdecimal]

theorem atoiAt_eq {h : Heap} {p : Ptr} {n : ℕ} (hp : Points h p (decimal n))
    (hn : (n : ℤ) ≤ INT_MAX) : atoiAt h p = some (n : ℤ) := by
  have hmin : INT_MIN ≤ (n : ℤ) := by
    unfold INT_MIN
    omega
  have hatoi := @atoi_decimal n hmin hn [] (by simp)
  rw [List.append_nil] at hatoi
  rw [atoiAt, hp.string_eq, Option.map_some, hatoi]

/-- Only the string that is read is written to. -/
theorem timespecAt_eq {h : Heap} {p : Ptr} {t : TimeText} (hp : Points h p t.text) :
    ∃ h', timespecAt h p = some (h', ⟨t.sec, (t.nsec.getD 0 : ℕ)⟩) ∧
      (∀ q u, p.off + t.text.length < q.off → Points h q u → Points h' q u) ∧
      ∀ b ≠ p.block, h'[b]? = h[b]? := by
  obtain ⟨sec, nsec, hsec, hnsec⟩ := t
  have hslash := notMem_decimal (c := '/') (by decide) (by decide)
  cases nsec with
  | none =>
    refine ⟨h, ?_, fun _ _ _ hq => hq, fun _ _ => rfl⟩
    have hread := atoiAt_eq hp hsec
    rw [timespecAt, hp.strchr_none (hslash _)]
    show (do return (h, ⟨← atoiAt h p, 0⟩) : Option (Heap × Timespec)) = _
    rw [hread]
    rfl
  | some n =>
    have hn : (n : ℤ) ≤ INT_MAX := by
      have := hnsec n rfl
      unfold INT_MAX
      omega
    obtain ⟨h', hstore, hfirst, hsecond, hbehind, hblocks⟩ := Points.cut hp
    refine ⟨h', ?_, ?_, hblocks⟩
    · rw [timespecAt, hp.strchr_some (hslash _)]
      show (do
        let h ← store h (p.add (decimal sec).length) '\x00'
        return (h, ⟨← atoiAt h p, ← atoiAt h ((p.add (decimal sec).length).add 1)⟩) :
          Option (Heap × Timespec)) = _
      rw [hstore]
      show (do return (h', ⟨← atoiAt h' p, ← atoiAt h' (p.add ((decimal sec).length + 1))⟩) :
        Option (Heap × Timespec)) = _
      rw [atoiAt_eq hfirst hsec, atoiAt_eq hsecond hn]
      rfl
    · intro q u hq
      refine hbehind q u (lt_of_le_of_lt ?_ hq)
      show p.off + (decimal sec).length ≤ p.off + (decimal sec ++ '/' :: decimal n).length
      rw [List.length_append]
      omega

/-! ## Both times -/

theorem blocks_free {h : Heap} {p : Ptr} {b : ℕ} (hb : b ≠ p.block) :
    (free h p)[b]? = h[b]? := List.getElem?_set_ne hb.symm

theorem itimerspecFromStr_eq {h : Heap} {str : Ptr} {t : SpecText} (hstr : Points h str t.text) :
    ∃ h', itimerspecFromStr h str = some (h', itimerspec t.numbers) ∧
      ∀ b < h.length, h'[b]? = h[b]? := by
  obtain ⟨value, interval⟩ := t
  obtain ⟨h₁, hdup, hp, hkeep⟩ := hstr.strdup
  rw [itimerspecFromStr, hdup]
  cases interval with
  | none =>
    obtain ⟨h₂, hvalue, -, hblocks⟩ := timespecAt_eq hp
    refine ⟨free h₂ ⟨h.length, 0⟩, ?_, ?_⟩
    · show (strchr h₁ ⟨h.length, 0⟩ ':').bind _ = _
      rw [hp.strchr_none (colon_notMem value)]
      show (timespecAt h₁ ⟨h.length, 0⟩).bind _ = _
      rw [hvalue]
      rfl
    · intro b hb
      rw [blocks_free (show b ≠ h.length from hb.ne), hblocks b hb.ne, hkeep b hb]
  | some interval =>
    obtain ⟨h₂, hstore, hfirst, hsecond, -, hcut⟩ := Points.cut hp
    obtain ⟨h₃, hvalue, hbehind, hblocks⟩ := timespecAt_eq hfirst
    obtain ⟨h₄, hinterval, -, hblocks'⟩ := timespecAt_eq
      (hbehind _ _ (Nat.add_lt_add_left (Nat.lt_succ_self _) _) hsecond)
    refine ⟨free h₄ ⟨h.length, 0⟩, ?_, ?_⟩
    · show (strchr h₁ ⟨h.length, 0⟩ ':').bind _ = _
      rw [hp.strchr_some (colon_notMem value)]
      show (store h₁ (Ptr.add ⟨h.length, 0⟩ value.text.length) '\x00').bind _ = _
      rw [hstore]
      show (timespecAt h₂ ⟨h.length, 0⟩).bind _ = _
      rw [hvalue]
      show (timespecAt h₃ (Ptr.add ⟨h.length, 0⟩ (value.text.length + 1))).bind _ = _
      rw [hinterval]
      rfl
    · intro b hb
      rw [blocks_free (show b ≠ h.length from hb.ne), hblocks' b hb.ne, hblocks b hb.ne,
        hcut b hb.ne, hkeep b hb]

/-- Parsing gives the numbers that the text denotes, different numbers give different structures,
and the memory that was there before the call, with the argument in it, stays as it was. -/
theorem itimerspecFromStr_inverts (h : Heap) (str : Ptr) (t : SpecText)
    (hstr : Points h str t.text) :
    (∃ h', itimerspecFromStr h str = some (h', itimerspec t.numbers) ∧
      (∀ b < h.length, h'[b]? = h[b]?) ∧ string h' str = string h str) ∧
    ∀ k str' (t' : SpecText), Points k str' t'.text →
      ((itimerspecFromStr h str).map Prod.snd = (itimerspecFromStr k str').map Prod.snd ↔
        t.numbers = t'.numbers) := by
  obtain ⟨h', hparse, hkeep⟩ := itimerspecFromStr_eq hstr
  have hblock : str.block < h.length := by
    by_contra hge
    obtain ⟨-, rest, htail⟩ := hstr
    rw [tail, List.getElem?_eq_none (not_lt.mp hge), Option.getD_none, List.drop_nil] at htail
    simp at htail
  have htail : tail h' str = tail h str := by
    rw [tail, tail, hkeep _ hblock]
  refine ⟨⟨h', hparse, hkeep, ?_⟩, ?_⟩
  · rw [string, string, htail]
  · intro k str' t' hstr'
    obtain ⟨k', hparse', -⟩ := itimerspecFromStr_eq hstr'
    rw [hparse, hparse', Option.map_some, Option.map_some, Option.some_inj,
      itimerspec_injective.eq_iff]

/-- A string of the longest form, with a slash in both parts. -/
def longest : SpecText :=
  ⟨⟨7, some 5, by decide, by simp⟩, some ⟨3, some 999999999, by decide, by simp⟩⟩

theorem itimerspecFromStr_inverts_longest :
    Points ["7/5:3/999999999\x00".toList] ⟨0, 0⟩ longest.text ∧
    ∃ h', itimerspecFromStr ["7/5:3/999999999\x00".toList] ⟨0, 0⟩ =
        some (h', ⟨⟨7, 5⟩, ⟨3, 999999999⟩⟩) ∧
      h'[0]? = some "7/5:3/999999999\x00".toList := by
  have hpoints : Points ["7/5:3/999999999\x00".toList] ⟨0, 0⟩ longest.text :=
    ⟨by decide, [], by decide⟩
  obtain ⟨⟨h', hparse, hkeep, -⟩, -⟩ := itimerspecFromStr_inverts _ _ longest hpoints
  exact ⟨hpoints, h', hparse, hkeep 0 (by decide)⟩

end Tlpi.Timers
