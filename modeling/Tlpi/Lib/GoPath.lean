import Tlpi.Lib.Fields
import Tlpi.Lib.Fill

/-! The functions of Go's `path/filepath` on slash-separated pathnames. `filepath.Clean()` is given
on the elements of a pathname. A cleaned pathname consists of leading `..` elements and of names. -/

namespace Tlpi.Lib.GoPath

def slash : UInt8 := 0x2F
def dot : Bytes := [0x2E]
def dotdot : Bytes := [0x2E, 0x2E]

/-- `strings.Split(s, "/")` -/
def split (s : Bytes) : List Bytes := s.splitOn slash

/-- One element of the pathname. A `..` removes the element before it, unless that is a `..` too. -/
def cleanStep (rooted : Bool) (elems : List Bytes) (elem : Bytes) : List Bytes :=
  if elem = [] ∨ elem = dot then elems
  else if elem = dotdot then
    if elems.getLast?.getD dotdot ≠ dotdot then elems.dropLast
    else if rooted then elems
    else elems ++ [dotdot]
  else elems ++ [elem]

def isRooted (path : Bytes) : Bool := path.head? = some slash

def elements (path : Bytes) : List Bytes := (split path).foldl (cleanStep (isRooted path)) []

def render (rooted : Bool) (elems : List Bytes) : Bytes :=
  if rooted then slash :: joined slash elems
  else if elems = [] then dot
  else joined slash elems

def clean (path : Bytes) : Bytes := render (isRooted path) (elements path)

/-- `filepath.Join()` of two elements, where empty ones are ignored. -/
def join (path name : Bytes) : Bytes :=
  if path ≠ [] then clean (path ++ slash :: name) else if name ≠ [] then clean name else []

def base (path : Bytes) : Bytes :=
  if path = [] then dot
  else
    let last := ((path.reverse.dropWhile (· = slash)).takeWhile (· ≠ slash)).reverse
    if last = [] then [slash] else last

/-! ## Cleaned pathnames -/

/-- The name of a file in a directory. -/
structure IsName (n : Bytes) : Prop where
  ne_nil : n ≠ []
  ne_dot : n ≠ dot
  ne_dotdot : n ≠ dotdot
  no_slash : slash ∉ n

instance (n : Bytes) : Decidable (IsName n) :=
  decidable_of_iff (n ≠ [] ∧ n ≠ dot ∧ n ≠ dotdot ∧ slash ∉ n)
    ⟨fun ⟨a, b, c, d⟩ => ⟨a, b, c, d⟩, fun ⟨a, b, c, d⟩ => ⟨a, b, c, d⟩⟩

def Canonical (rooted : Bool) (elems : List Bytes) : Prop :=
  ∃ k names, elems = List.replicate k dotdot ++ names ∧ (rooted = true → k = 0) ∧
    ∀ n ∈ names, IsName n

section Canonical
variable {rooted : Bool} {elems ns : List Bytes} {n : Bytes}

theorem Canonical.append (h : Canonical rooted elems) (hns : ∀ n ∈ ns, IsName n) :
    Canonical rooted (elems ++ ns) := by
  obtain ⟨k, names, rfl, hk, hnames⟩ := h
  refine ⟨k, names ++ ns, List.append_assoc _ _ _, hk, ?_⟩
  intro n hn
  rcases List.mem_append.mp hn with hn | hn
  · exact hnames n hn
  · exact hns n hn

theorem Canonical.mem (h : Canonical rooted elems) (hn : n ∈ elems) :
    n ≠ [] ∧ n ≠ dot ∧ slash ∉ n := by
  obtain ⟨k, names, rfl, -, hnames⟩ := h
  rcases List.mem_append.mp hn with hn | hn
  · rw [List.eq_of_mem_replicate hn]
    decide
  · exact ⟨(hnames n hn).ne_nil, (hnames n hn).ne_dot, (hnames n hn).no_slash⟩

theorem cleanStep_name (hn : IsName n) : cleanStep rooted elems n = elems ++ [n] := by
  rw [cleanStep, if_neg (by simp [hn.ne_nil, hn.ne_dot]), if_neg hn.ne_dotdot]

theorem cleanStep_dotdot : cleanStep rooted elems dotdot =
    if elems.getLast?.getD dotdot ≠ dotdot then elems.dropLast
    else if rooted then elems else elems ++ [dotdot] := by
  rw [cleanStep, if_neg (by decide), if_pos rfl]

theorem getLast_replicate (k : ℕ) : (List.replicate k dotdot).getLast?.getD dotdot = dotdot := by
  rw [List.getLast?_replicate]
  split_ifs <;> rfl

theorem Canonical.cleanStep (h : Canonical rooted elems) (hn : slash ∉ n) :
    Canonical rooted (cleanStep rooted elems n) := by
  by_cases hskip : n = [] ∨ n = dot
  · rwa [GoPath.cleanStep, if_pos hskip]
  by_cases hup : n = dotdot
  · obtain ⟨k, names, rfl, hk, hnames⟩ := h
    rw [hup, cleanStep_dotdot]
    rcases List.eq_nil_or_concat' names with rfl | ⟨names, m, rfl⟩
    · rw [List.append_nil, if_neg (not_not.mpr (getLast_replicate k))]
      split_ifs with hr
      · exact ⟨k, [], (List.append_nil _).symm, hk, hnames⟩
      · refine ⟨k + 1, [], ?_, fun hrooted => absurd hrooted hr, hnames⟩
        rw [List.append_nil, List.replicate_succ']
    · have hm := hnames m (by simp)
      rw [← List.append_assoc, List.getLast?_concat, Option.getD_some, if_pos hm.ne_dotdot,
        List.dropLast_concat]
      exact ⟨k, names, rfl, hk, fun n hn => hnames n (List.mem_append_left _ hn)⟩
  · have hname : IsName n := by
      obtain ⟨hnil, hdot⟩ := not_or.mp hskip
      exact ⟨hnil, hdot, hup, hn⟩
    rw [cleanStep_name hname]
    exact h.append fun m hm => List.mem_singleton.mp hm ▸ hname

theorem Canonical.foldl {parts : List Bytes} (h : Canonical rooted elems)
    (hparts : ∀ n ∈ parts, slash ∉ n) :
    Canonical rooted (parts.foldl (GoPath.cleanStep rooted) elems) := by
  induction parts generalizing elems with
  | nil => exact h
  | cons n parts ih =>
    exact ih (h.cleanStep (hparts n List.mem_cons_self)) fun m hm =>
      hparts m (List.mem_cons_of_mem _ hm)

theorem foldl_cleanStep_names (hns : ∀ n ∈ ns, IsName n) :
    ns.foldl (cleanStep rooted) elems = elems ++ ns := by
  induction ns generalizing elems with
  | nil => exact (List.append_nil elems).symm
  | cons n ns ih =>
    rw [List.foldl_cons, cleanStep_name (hns n List.mem_cons_self),
      ih fun m hm => hns m (List.mem_cons_of_mem _ hm), List.append_assoc, List.singleton_append]

theorem foldl_cleanStep_dotdots (k : ℕ) :
    (List.replicate k dotdot).foldl (cleanStep false) [] = List.replicate k dotdot := by
  induction k with
  | zero => rfl
  | succ k ih =>
    rw [List.replicate_succ', List.foldl_append, ih, List.foldl_cons, List.foldl_nil,
      cleanStep_dotdot, if_neg (not_not.mpr (getLast_replicate k))]
    rfl

/-- The elements of a cleaned pathname stay. -/
theorem Canonical.foldl_cleanStep (h : Canonical rooted elems) :
    elems.foldl (GoPath.cleanStep rooted) [] = elems := by
  obtain ⟨k, names, rfl, hk, hnames⟩ := h
  rw [List.foldl_append, foldl_cleanStep_names hnames]
  congr 1
  cases rooted with
  | true =>
    rw [hk rfl]
    rfl
  | false => exact foldl_cleanStep_dotdots k

end Canonical

/-! ## Texts -/

section Text
variable {rooted : Bool} {elems ns : List Bytes} {n : Bytes}

theorem notMem_of_mem_split {s : Bytes} (hn : n ∈ split s) : slash ∉ n := by
  induction s generalizing n with
  | nil =>
    rw [split, List.splitOn_nil, List.mem_singleton] at hn
    rw [hn]
    exact List.not_mem_nil
  | cons b s ih =>
    rw [split, List.splitOn_cons_eq_if_modifyHead] at hn
    split_ifs at hn with hb
    · rcases List.mem_cons.mp hn with rfl | hn
      · exact List.not_mem_nil
      · exact ih hn
    · obtain ⟨first, rest, hsplit⟩ := List.exists_cons_of_ne_nil (List.splitOn_ne_nil slash s)
      rw [hsplit, List.modifyHead_cons] at hn
      rcases List.mem_cons.mp hn with rfl | hn
      · have hfirst : slash ∉ first := ih (by rw [split, hsplit]; exact List.mem_cons_self)
        simp only [List.mem_cons, not_or]
        exact ⟨fun he => hb (by simp [he]), hfirst⟩
      · exact ih (by rw [split, hsplit]; exact List.mem_cons_of_mem _ hn)

theorem canonical_elements (path : Bytes) : Canonical (isRooted path) (elements path) := by
  refine Canonical.foldl ⟨0, [], rfl, fun _ => rfl, List.forall_mem_nil _⟩ ?_
  exact fun n => notMem_of_mem_split

theorem split_joined (h : Canonical rooted elems) (hne : elems ≠ []) :
    split (joined slash elems) = elems :=
  List.splitOn_intercalate slash (fun _ hn => (h.mem hn).2.2) hne

theorem split_slash_cons (s : Bytes) : split (slash :: s) = [] :: split s :=
  List.splitOn_append_cons_self [] s

theorem split_append_name (s : Bytes) (hn : slash ∉ n) :
    split (s ++ slash :: n) = split s ++ [n] := by
  rw [split, List.splitOn_append_cons_self, List.splitOn_eq_singleton hn]
  rfl

theorem render_false (hne : elems ≠ []) : render false elems = joined slash elems := if_neg hne

theorem split_render (h : Canonical rooted elems) (hne : elems ≠ []) :
    split (render rooted elems) = (if rooted then [[]] else []) ++ elems := by
  cases rooted with
  | true =>
    show split (slash :: joined slash elems) = [] :: elems
    rw [split_slash_cons, split_joined h hne]
  | false =>
    rw [render_false hne, split_joined h hne]
    rfl

theorem length_split_render (h : Canonical rooted elems) :
    (split (render rooted elems)).length = (if rooted then 1 else 0) + max 1 elems.length := by
  by_cases hne : elems = []
  · rw [hne]
    cases rooted <;> rfl
  · have hpos := List.length_pos_iff.mpr hne
    rw [split_render h hne, List.length_append, max_eq_right hpos]
    cases rooted <;> rfl

/-- A relative pathname is neither empty nor does it begin with a slash. -/
theorem render_head (h : Canonical rooted elems) :
    render rooted elems ≠ [] ∧ isRooted (render rooted elems) = rooted := by
  cases rooted with
  | true => exact ⟨List.cons_ne_nil _ _, rfl⟩
  | false =>
    by_cases hne : elems = []
    · rw [hne]
      decide
    · have hnil : [] ∉ elems := fun hmem => (h.mem hmem).1 rfl
      have hsplit : split (render false elems) = elems := split_render h hne
      refine ⟨fun htext => ?_, decide_eq_false fun hhead => ?_⟩
      · rw [htext] at hsplit
        exact hnil (hsplit ▸ List.mem_singleton_self [])
      · obtain ⟨s, hs⟩ := List.head?_eq_some_iff.mp hhead
        rw [hs, split_slash_cons] at hsplit
        exact hnil (hsplit ▸ List.mem_cons_self)

/-- Cleaning a cleaned pathname changes nothing. -/
theorem elements_render (h : Canonical rooted elems) : elements (render rooted elems) = elems := by
  rw [elements, (render_head h).2]
  by_cases hne : elems = []
  · rw [hne]
    cases rooted <;> rfl
  · rw [split_render h hne]
    cases rooted <;> exact h.foldl_cleanStep

theorem join_render (h : Canonical rooted elems) (hn : IsName n) :
    join (render rooted elems) n = render rooted (elems ++ [n]) := by
  obtain ⟨hne, hhead⟩ := render_head h
  have hrooted : isRooted (render rooted elems ++ slash :: n) = rooted := by
    rw [isRooted, List.head?_append_of_ne_nil _ hne]
    exact hhead
  have helements : elements (render rooted elems ++ slash :: n) = elems ++ [n] := by
    have hrender := elements_render h
    rw [elements, hhead] at hrender
    rw [elements, hrooted, split_append_name _ hn.no_slash, List.foldl_append, hrender]
    exact cleanStep_name hn
  rw [join, if_pos hne, clean, hrooted, helements]

theorem foldl_join_render (h : Canonical rooted elems) (hns : ∀ n ∈ ns, IsName n) :
    ns.foldl join (render rooted elems) = render rooted (elems ++ ns) := by
  induction ns generalizing elems with
  | nil => rw [List.append_nil, List.foldl_nil]
  | cons n ns ih =>
    have hn := hns n List.mem_cons_self
    have hone : Canonical rooted (elems ++ [n]) :=
      h.append fun m hm => List.mem_singleton.mp hm ▸ hn
    rw [List.foldl_cons, join_render h hn, ih hone fun m hm => hns m (List.mem_cons_of_mem _ hm),
      List.append_assoc, List.singleton_append]

/-- What stands in front of the last element is empty or ends with a slash. -/
theorem render_concat (rooted : Bool) (elems : List Bytes) (n : Bytes) :
    ∃ pre, render rooted (elems ++ [n]) = pre ++ n ∧ (pre = [] ∨ ∃ u, pre = u ++ [slash]) := by
  have hjoined : ∃ pre, joined slash (elems ++ [n]) = pre ++ n ∧
      (pre = [] ∨ ∃ u, pre = u ++ [slash]) := by
    by_cases hne : elems = []
    · exact ⟨[], by rw [hne, List.nil_append, joined_singleton, List.nil_append], .inl rfl⟩
    · refine ⟨joined slash elems ++ [slash], ?_, .inr ⟨_, rfl⟩⟩
      rw [joined_append_singleton hne, List.append_assoc, List.singleton_append]
  obtain ⟨pre, hpre, hlast⟩ := hjoined
  cases rooted with
  | true =>
    refine ⟨slash :: pre, ?_, ?_⟩
    · show slash :: joined slash (elems ++ [n]) = _
      rw [hpre, List.cons_append]
    · rcases hlast with rfl | ⟨u, rfl⟩
      · exact .inr ⟨[], rfl⟩
      · exact .inr ⟨slash :: u, rfl⟩
  | false =>
    refine ⟨pre, ?_, hlast⟩
    rw [render_false (by simp), hpre]

theorem base_append {pre : Bytes} (hn : IsName n) (hpre : pre = [] ∨ ∃ u, pre = u ++ [slash]) :
    base (pre ++ n) = n := by
  have hall : ∀ b ∈ n.reverse, decide (b ≠ slash) = true := by
    intro b hb
    rw [decide_eq_true_eq]
    rintro rfl
    exact hn.no_slash (List.mem_reverse.mp hb)
  have hdrop : (pre ++ n).reverse.dropWhile (· = slash) = n.reverse ++ pre.reverse := by
    obtain ⟨b, s, hs⟩ := List.exists_cons_of_ne_nil (List.reverse_ne_nil_iff.mpr hn.ne_nil)
    have hb := of_decide_eq_true (hall b (hs ▸ List.mem_cons_self))
    rw [List.reverse_append, hs, List.cons_append, List.dropWhile_cons_of_neg (by simpa using hb)]
  have htake : (n.reverse ++ pre.reverse).takeWhile (· ≠ slash) = n.reverse := by
    rw [List.takeWhile_append_of_pos hall]
    rcases hpre with rfl | ⟨u, rfl⟩ <;> simp
  rw [base, if_neg (by simp [hn.ne_nil]), hdrop, htake, List.reverse_reverse, if_neg hn.ne_nil]

theorem base_render (elems : List Bytes) (hn : IsName n) :
    base (render rooted (elems ++ [n])) = n := by
  obtain ⟨pre, hrender, hpre⟩ := render_concat rooted elems n
  rw [hrender, base_append hn hpre]

/-- The only cleaned pathnames without elements. -/
theorem render_eq_iff (h : Canonical rooted elems) :
    render rooted elems = dot ∨ render rooted elems = [slash] ↔ elems = [] := by
  constructor
  · intro htext
    rw [← elements_render h]
    rcases htext with htext | htext <;> rw [htext] <;> rfl
  · rintro rfl
    cases rooted with
    | true => exact .inr rfl
    | false => exact .inl rfl

end Text

end Tlpi.Lib.GoPath
