import Tlpi.Inotify.InPlace

/-! What `zapSubtree()` removes, and what its four callers do when it fails. The two event handlers
rebuild the cache; the commands `a` and `z` go on with what is left of the subtree. -/

namespace Tlpi.Inotify
open Lib

variable {σ : Type} {K : Kernel σ} {d d' : Dtree σ} {pn : Path}

/-! ## The slots of a subtree -/

def hits (pn : Path) (wl : List Watch) : List Watch := wl.filter fun w => Matches pn w

def emptied (pn : Path) (wl : List Watch) : List Watch :=
  wl.map fun w => if Matches pn w then emptySlot else w

theorem matches_iff {w : Watch} : Matches pn w ↔
    0 ≤ w.wd ∧ (w.path = pn ∨ ∃ s, w.path = pn ++ '/' :: s) := by
  unfold Matches
  rw [atOrBelow_iff]
  refine and_congr_right fun _ => ⟨?_, ?_⟩
  · rintro ⟨r, hr, rfl | ⟨s, rfl⟩⟩
    · exact .inl (by rw [hr, List.append_nil])
    · exact .inr ⟨s, hr⟩
  · rintro (h | ⟨s, h⟩)
    · exact ⟨[], by rw [h, List.append_nil], .inl rfl⟩
    · exact ⟨_, h, .inr ⟨s, rfl⟩⟩

theorem hits_cons_of_pos {w : Watch} (hm : Matches pn w) (wl : List Watch) :
    hits pn (w :: wl) = w :: hits pn wl := List.filter_cons_of_pos (by simpa using hm)

theorem hits_cons_of_neg {w : Watch} (hm : ¬ Matches pn w) (wl : List Watch) :
    hits pn (w :: wl) = hits pn wl := List.filter_cons_of_neg (by simpa using hm)

theorem emptied_cons (w : Watch) (wl : List Watch) :
    emptied pn (w :: wl) = (if Matches pn w then emptySlot else w) :: emptied pn wl := rfl

namespace InPlace

/-- The loop over `rest` has removed every watch of the subtree. -/
structure Completed (pn : Path) (done rest : List Watch) (z z' : Zap σ) : Prop where
  cache : z'.cache = done ++ emptied pn rest
  cnt : z'.cnt = z.cnt + (hits pn rest).length
  calls : z'.calls = z.calls ++ (hits pn rest).map fun w => (w.wd, true)

/-- The loop over `before ++ w :: after` has failed to remove the watch of `w`. -/
structure Stopped (pn : Path) (done before : List Watch) (w : Watch) (after : List Watch)
    (z z' : Zap σ) : Prop where
  hit : Matches pn w
  cache : z'.cache = done ++ emptied pn before ++ w :: after
  cnt : z'.cnt = -1
  calls : z'.calls = z.calls ++ (hits pn before).map (fun w => (w.wd, true)) ++ [(w.wd, false)]

theorem Completed.cons_of_pos {done rest : List Watch} {w : Watch} {z z' : Zap σ} {wl : List Watch}
    {k : σ} (hm : Matches pn w)
    (h : Completed pn (done ++ [emptySlot]) rest ⟨wl, k, z.cnt + 1, z.calls ++ [(w.wd, true)]⟩ z') :
    Completed pn done (w :: rest) z z' where
  cache := by rw [h.cache, emptied_cons, if_pos hm, List.append_assoc, List.singleton_append]
  cnt := by
    rw [h.cnt, hits_cons_of_pos hm, List.length_cons]
    push_cast
    ring
  calls := by rw [h.calls, hits_cons_of_pos hm, List.append_assoc]; rfl

theorem Completed.cons_of_neg {done rest : List Watch} {w : Watch} {z z' : Zap σ}
    (hm : ¬ Matches pn w) (h : Completed pn (done ++ [w]) rest z z') :
    Completed pn done (w :: rest) z z' where
  cache := by rw [h.cache, emptied_cons, if_neg hm, List.append_assoc, List.singleton_append]
  cnt := by rw [h.cnt, hits_cons_of_neg hm]
  calls := by rw [h.calls, hits_cons_of_neg hm]

theorem Stopped.cons_of_pos {done before after : List Watch} {v w : Watch} {z z' : Zap σ}
    {wl : List Watch} {k : σ} (hm : Matches pn v)
    (h : Stopped pn (done ++ [emptySlot]) before w after
      ⟨wl, k, z.cnt + 1, z.calls ++ [(v.wd, true)]⟩ z') :
    Stopped pn done (v :: before) w after z z' where
  hit := h.hit
  cache := by rw [h.cache, emptied_cons, if_pos hm]; simp
  cnt := h.cnt
  calls := by rw [h.calls, hits_cons_of_pos hm]; simp

theorem Stopped.cons_of_neg {done before after : List Watch} {v w : Watch} {z z' : Zap σ}
    (hm : ¬ Matches pn v) (h : Stopped pn (done ++ [v]) before w after z z') :
    Stopped pn done (v :: before) w after z z' where
  hit := h.hit
  cache := by rw [h.cache, emptied_cons, if_neg hm]; simp
  cnt := h.cnt
  calls := by rw [h.calls, hits_cons_of_neg hm]

theorem getElem?_length_append (done : List Watch) (w : Watch) (rest : List Watch) :
    (done ++ w :: rest)[done.length]? = some w := by
  rw [List.getElem?_append_right le_rfl, Nat.sub_self]
  rfl

theorem markCacheSlotEmpty_append (done : List Watch) (w : Watch) (rest : List Watch) :
    markCacheSlotEmpty (done ++ w :: rest) done.length = done ++ [emptySlot] ++ rest := by
  rw [markCacheSlotEmpty, List.set_append_right _ _ le_rfl, Nat.sub_self, List.append_assoc]
  rfl

/-- One iteration, with the slots before and behind the one it looks at. -/
theorem zapLoop_cons {pn : Path} {done rest : List Watch} {w : Watch} {z : Zap σ}
    (hz : z.cache = done ++ w :: rest) :
    zapLoop K pn (w :: rest).length done.length z =
      if Matches pn w then
        if (K.rmWatch z.kernel w.wd).2 then
          zapLoop K pn rest.length (done.length + 1)
            ⟨done ++ [emptySlot] ++ rest, (K.rmWatch z.kernel w.wd).1, z.cnt + 1,
              z.calls ++ [(w.wd, true)]⟩
        else ⟨z.cache, (K.rmWatch z.kernel w.wd).1, -1, z.calls ++ [(w.wd, false)]⟩
      else zapLoop K pn rest.length (done.length + 1) z := by
  have hget : z.cache[done.length]? = some w := by
    rw [hz]
    exact getElem?_length_append done w rest
  have hmark : markCacheSlotEmpty z.cache done.length = done ++ [emptySlot] ++ rest := by
    rw [hz]
    exact markCacheSlotEmpty_append done w rest
  rw [List.length_cons, zapLoop, hget]
  dsimp only
  by_cases hm : Matches pn w
  · rw [if_pos (show 0 ≤ w.wd ∧ atOrBelow pn w.path = true from hm), if_pos hm]
    cases (K.rmWatch z.kernel w.wd).2 with
    | true => rw [if_pos rfl, if_pos rfl, hmark]
    | false => rfl
  · rw [if_neg (show ¬(0 ≤ w.wd ∧ atOrBelow pn w.path = true) from hm), if_neg hm]

/-- Induction on the slots that are left: the loop goes through all of them, or stops at one. -/
theorem zapLoop_cases (pn : Path) (done rest : List Watch) (z : Zap σ)
    (hz : z.cache = done ++ rest) :
    Completed pn done rest z (zapLoop K pn rest.length done.length z) ∨
      ∃ before w after, rest = before ++ w :: after ∧
        Stopped pn done before w after z (zapLoop K pn rest.length done.length z) := by
  induction rest generalizing done z with
  | nil =>
    left
    exact ⟨hz, by simp [zapLoop, hits], by simp [zapLoop, hits]⟩
  | cons w rest ih =>
    rw [zapLoop_cons hz]
    by_cases hm : Matches pn w
    · rw [if_pos hm]
      cases hok : (K.rmWatch z.kernel w.wd).2 with
      | false =>
        rw [if_neg Bool.false_ne_true]
        right
        refine ⟨[], w, rest, rfl, hm, ?_, rfl, ?_⟩
        · exact hz.trans (by simp [emptied])
        · simp [hits]
      | true =>
        rw [if_pos rfl]
        have hnext := ih (done ++ [emptySlot])
          ⟨done ++ [emptySlot] ++ rest, (K.rmWatch z.kernel w.wd).1, z.cnt + 1,
            z.calls ++ [(w.wd, true)]⟩ rfl
        rw [List.length_append, List.length_singleton] at hnext
        rcases hnext with hall | ⟨before, v, after, hrest, hstop⟩
        · exact .inl (hall.cons_of_pos hm)
        · exact .inr ⟨w :: before, v, after, by rw [hrest]; rfl, hstop.cons_of_pos hm⟩
    · rw [if_neg hm]
      have hnext := ih (done ++ [w]) z (by rw [hz, List.append_assoc]; rfl)
      rw [List.length_append, List.length_singleton] at hnext
      rcases hnext with hall | ⟨before, v, after, hrest, hstop⟩
      · exact .inl (hall.cons_of_neg hm)
      · exact .inr ⟨w :: before, v, after, by rw [hrest]; rfl, hstop.cons_of_neg hm⟩

/-- The slot is in use, with the pathname `pn` or one that starts with `pn/`. -/
def InSubtree (pn : Path) (w : Watch) : Prop :=
  0 ≤ w.wd ∧ (w.path = pn ∨ ∃ s, w.path = pn ++ '/' :: s)

instance (pn : Path) (w : Watch) : Decidable (InSubtree pn w) := decidable_of_iff _ matches_iff

theorem inSubtree_iff {w : Watch} : InSubtree pn w ↔ Matches pn w := matches_iff.symm

/-- No descriptor is in two slots. -/
def DistinctWds (wl : List Watch) : Prop :=
  wl.Pairwise fun v w => 0 ≤ v.wd → 0 ≤ w.wd → v.wd ≠ w.wd

instance (wl : List Watch) : Decidable (DistinctWds wl) :=
  inferInstanceAs (Decidable (wl.Pairwise _))

theorem getElem?_emptied {wl : List Watch} {j : ℕ} {w : Watch} (h : wl[j]? = some w) :
    (emptied pn wl)[j]? = some (if InSubtree pn w then emptySlot else w) := by
  rw [emptied, List.getElem?_map, h, Option.map_some]
  simp only [inSubtree_iff]

theorem nodup_hits {wl : List Watch} (h : DistinctWds wl) : ((hits pn wl).map Watch.wd).Nodup := by
  rw [List.Nodup, List.pairwise_map]
  refine List.Pairwise.imp_of_mem ?_ (h.filter _)
  intro v w hv hw hne
  have hv' : Matches pn v := by simpa using (List.mem_filter.mp hv).2
  have hw' : Matches pn w := by simpa using (List.mem_filter.mp hw).2
  exact hne hv'.1 hw'.1

theorem count_hits {wl : List Watch} (h : DistinctWds wl) (wd : ℤ) :
    ((hits pn wl).map Watch.wd).count wd =
      if ∃ w ∈ wl, InSubtree pn w ∧ w.wd = wd then 1 else 0 := by
  have hmem : wd ∈ (hits pn wl).map Watch.wd ↔ ∃ w ∈ wl, InSubtree pn w ∧ w.wd = wd := by
    simp only [hits, List.mem_map, List.mem_filter, decide_eq_true_eq, inSubtree_iff, and_assoc]
  rw [(nodup_hits h).count]
  simp only [hmem]

theorem Completed.calls_fst {wl : List Watch} {k : σ} {z : Zap σ}
    (h : Completed pn [] wl ⟨wl, k, 0, []⟩ z) :
    z.calls.map Prod.fst = (hits pn wl).map Watch.wd := by
  rw [h.calls, List.nil_append, List.map_map]
  rfl

theorem Completed.succeeds {wl : List Watch} {k : σ} {z : Zap σ}
    (h : Completed pn [] wl ⟨wl, k, 0, []⟩ z) {c : ℤ × Bool} (hc : c ∈ z.calls) : c.2 = true := by
  rw [h.calls, List.nil_append] at hc
  obtain ⟨w, -, rfl⟩ := List.mem_map.mp hc
  rfl

section Stopped

variable {before after : List Watch} {w : Watch} {k : σ} {z : Zap σ}
  (h : Stopped pn [] before w after ⟨before ++ w :: after, k, 0, []⟩ z)
include h

theorem Stopped.fails : (w.wd, false) ∈ z.calls := by
  rw [h.calls]
  simp

/-- With distinct descriptors the failed call tells the slot. -/
theorem Stopped.slot (hdist : DistinctWds (before ++ w :: after)) {i : ℕ} {v : Watch}
    (hv : (before ++ w :: after)[i]? = some v) (hc : (v.wd, false) ∈ z.calls) :
    i = before.length := by
  have hwd : v.wd = w.wd := by
    rw [h.calls] at hc
    simpa using hc
  have hw := getElem?_length_append before w after
  have hpos : 0 ≤ w.wd := h.hit.1
  obtain ⟨hi, rfl⟩ := List.getElem?_eq_some_iff.mp hv
  obtain ⟨hj, hwj⟩ := List.getElem?_eq_some_iff.mp hw
  have hpair := List.pairwise_iff_getElem.mp hdist
  rcases lt_trichotomy i before.length with hlt | heq | hgt
  · have hne := hpair i before.length hi hj hlt
    rw [hwj, hwd] at hne
    exact absurd rfl (hne hpos hpos)
  · exact heq
  · have hne := hpair before.length i hj hi hgt
    rw [hwj, hwd] at hne
    exact absurd rfl (hne hpos hpos)

theorem Stopped.getElem? {j : ℕ} {v : Watch} (hv : (before ++ w :: after)[j]? = some v) :
    z.cache[j]? = some (if InSubtree pn v ∧ j < before.length then emptySlot else v) := by
  rw [h.cache, List.nil_append]
  have hlen : (emptied pn before).length = before.length := List.length_map _
  by_cases hj : j < before.length
  · rw [List.getElem?_append_left hj] at hv
    rw [List.getElem?_append_left (hlen.symm ▸ hj), getElem?_emptied hv]
    simp only [hj, and_true]
  · rw [List.getElem?_append_right (not_lt.mp hj)] at hv
    rw [List.getElem?_append_right (hlen.symm ▸ not_lt.mp hj), hlen, hv]
    simp only [hj, and_false, if_false]

end Stopped

/-- The loop on the array in step with the recursion over the slots. -/
theorem zapLoop_eq (pn : Path) (done rest : List Watch) (z : Zap σ) (hz : z.cache = done ++ rest) :
    let s := zapSlots K pn done.length rest z.kernel
    let z' := zapLoop K pn rest.length done.length z
    z'.cache = done ++ s.cache ∧ z'.kernel = s.kernel ∧
      z'.cnt = if s.ok then z.cnt + s.slots.length else -1 := by
  induction rest generalizing done z with
  | nil => exact ⟨hz, rfl, (add_zero z.cnt).symm⟩
  | cons w rest ih =>
    rw [zapLoop_cons hz, zapSlots]
    by_cases hm : Matches pn w
    · simp only [if_pos hm, if_pos (show 0 ≤ w.wd ∧ atOrBelow pn w.path = true from hm)]
      cases hok : (K.rmWatch z.kernel w.wd).2 with
      | false => exact ⟨hz, rfl, rfl⟩
      | true =>
        have hnext := ih (done ++ [emptySlot])
          ⟨done ++ [emptySlot] ++ rest, (K.rmWatch z.kernel w.wd).1, z.cnt + 1,
            z.calls ++ [(w.wd, true)]⟩ rfl
        rw [List.length_append, List.length_singleton] at hnext
        obtain ⟨hcache, hkernel, hcnt⟩ := hnext
        refine ⟨?_, hkernel, ?_⟩
        · refine hcache.trans ?_
          rw [List.append_assoc]
          rfl
        · refine hcnt.trans ?_
          rw [if_pos rfl, List.length_cons, Nat.cast_succ, add_assoc, add_comm 1]
    · simp only [if_neg hm, if_neg (show ¬(0 ≤ w.wd ∧ atOrBelow pn w.path = true) from hm)]
      have hnext := ih (done ++ [w]) z (by rw [hz, List.append_assoc]; rfl)
      rw [List.length_append, List.length_singleton] at hnext
      obtain ⟨hcache, hkernel, hcnt⟩ := hnext
      refine ⟨?_, hkernel, hcnt⟩
      rw [hcache, List.append_assoc]
      rfl

/-- The loop over the array and the one of the whole program do the same. -/
theorem zapSubtree_eq (d : Dtree σ) (path : StrArg) :
    let z := zapSubtree K d.wlCache d.kernel path
    let r := Inotify.zapSubtree K d (path.get d.wlCache)
    z.cache = r.1.wlCache ∧ z.kernel = r.1.kernel ∧ (z.cnt = -1 ↔ r.2 = false) := by
  obtain ⟨hcache, hkernel, hcnt⟩ := @zapLoop_eq σ K (path.get d.wlCache) [] d.wlCache
    ⟨d.wlCache, d.kernel, 0, []⟩ rfl
  refine ⟨hcache, hkernel, ?_⟩
  have hret : (zapSubtree K d.wlCache d.kernel path).cnt =
      if (Inotify.zapSubtree K d (path.get d.wlCache)).2 then
        0 + ((zapSlots K (path.get d.wlCache) 0 d.wlCache d.kernel).slots.length : ℤ)
      else -1 := hcnt
  rw [hret]
  by_cases hok : (Inotify.zapSubtree K d (path.get d.wlCache)).2 = true
  · rw [if_pos hok, hok]
    simp only [Bool.true_eq_false, iff_false]
    omega
  · rw [if_neg hok]
    simpa using hok

end InPlace

/-! ## The callers -/

/-- All the calls of `inotify_rm_watch()` for a list of descriptors, one after the other,
succeed. -/
def removesAll (K : Kernel σ) : σ → List ℤ → Bool
  | _, [] => true
  | k, wd :: wds => (K.rmWatch k wd).2 && removesAll K (K.rmWatch k wd).1 wds

theorem zapSlots_ok (pn : Path) (j : ℕ) (wl : List Watch) (k : σ) :
    (zapSlots K pn j wl k).ok = removesAll K k ((hits pn wl).map Watch.wd) := by
  induction wl generalizing j k with
  | nil => rfl
  | cons w wl ih =>
    rw [zapSlots]
    by_cases hm : Matches pn w
    · rw [if_pos (show 0 ≤ w.wd ∧ atOrBelow pn w.path = true from hm), hits_cons_of_pos hm,
        List.map_cons, removesAll]
      cases (K.rmWatch k w.wd).2 with
      | true => exact ih (j + 1) _
      | false => rfl
    · rw [if_neg (show ¬ (0 ≤ w.wd ∧ atOrBelow pn w.path = true) from hm), hits_cons_of_neg hm]
      exact ih (j + 1) k

/-- The loop succeeds exactly if it empties every slot of the subtree. -/
theorem zapSlots_slots (pn : Path) (j : ℕ) (wl : List Watch) (k : σ) :
    (∀ (i : ℕ) (w : Watch), wl[i]? = some w → Matches pn w → j + i ∈ (zapSlots K pn j wl k).slots) ↔
      (zapSlots K pn j wl k).ok = true := by
  induction wl generalizing j k with
  | nil => simp [zapSlots]
  | cons w wl ih =>
    have hsucc (i : ℕ) : j + (i + 1) = j + 1 + i := by omega
    rw [zapSlots]
    split_ifs with hm hok
    · rw [← ih (j + 1) (K.rmWatch k w.wd).1]
      constructor
      · intro h i v hv hmv
        have hin := h (i + 1) v hv hmv
        rw [hsucc i] at hin
        exact (List.mem_cons.mp hin).resolve_left (by omega)
      · intro h i v hv hmv
        cases i with
        | zero => exact List.mem_cons_self
        | succ i =>
          rw [hsucc i]
          exact List.mem_cons_of_mem _ (h i v hv hmv)
    · refine iff_of_false (fun h => ?_) (by simp)
      exact List.not_mem_nil (h 0 w rfl hm)
    · rw [← ih (j + 1) k]
      constructor
      · intro h i v hv hmv
        have hin := h (i + 1) v hv hmv
        rwa [hsucc i] at hin
      · intro h i v hv hmv
        cases i with
        | zero =>
          obtain rfl := Option.some.inj hv
          exact absurd hmv hm
        | succ i =>
          rw [hsucc i]
          exact h i v hv hmv

/-- The places from which `zapSubtree()` is called: two branches of `processNextInotifyEvent()` and
the commands `a` and `z`. -/
inductive Caller
  | movedOut (ev : Event) (slot : Option ℕ)
  | moveSelf (ev : Event) (slot : Option ℕ)
  | add (arg : Path)
  | zap (arg : Path)

def Caller.isEvent : Caller → Bool
  | movedOut _ _ | moveSelf _ _ => true
  | add _ | zap _ => false

/-- The caller passes `p` to `zapSubtree()`. -/
inductive Caller.Zaps (d : Dtree σ) : Caller → Path → Prop
  | movedOut {ev slot j dir} (h : useSlot d ev slot = .ok (j, dir)) :
    Zaps d (.movedOut ev slot) (eventPath dir ev.name)
  | moveSelf {ev slot j path} (h : useSlot d ev slot = .ok (j, path))
      (hroot : isRootDirPath d.rootDirPaths path = true) : Zaps d (.moveSelf ev slot) path
  | add (arg : Path) : Zaps d (.add arg) arg
  | zap (arg : Path) : Zaps d (.zap arg) arg

def Caller.run (K : Kernel σ) (d : Dtree σ) : Caller → Except (Exit σ) (Dtree σ)
  | .movedOut ev slot => do
    let (d, _) ← Inotify.movedOut K d ev slot
    return d
  | .moveSelf ev slot => do
    let (d, _) ← onMoveSelf K d ev slot
    return d
  | .add arg => executeCommand K d (.add arg)
  | .zap arg => executeCommand K d (.zap arg)

/-- From `d` to `d'` every slot in use at or below `p` has been emptied. -/
def Removed (d d' : Dtree σ) (p : Path) : Prop :=
  ∃ ops, d'.trace = d.trace ++ ops ∧
    ∀ (j : ℕ) (w : Watch), d.wlCache[j]? = some w → Matches p w → CacheOp.empty j ∈ ops

/-- From `d` to `d'` the cache has been rebuilt by `reinitialize()`. -/
def Rebuilt (K : Kernel σ) (d d' : Dtree σ) : Prop :=
  ∃ d₀, d.trace <+: d₀.trace ∧ reinitialize K d₀ = .ok d'

/-! What the traversals add to the trace. -/

def Adds (d d' : Dtree σ) : Prop :=
  ∃ ops, d'.trace = d.trace ++ ops ∧ ∀ op ∈ ops, ∃ j wd p, op = CacheOp.add j wd p

theorem Adds.refl (d : Dtree σ) : Adds d d := ⟨[], by simp, by simp⟩

theorem Adds.trans {d d' d'' : Dtree σ} (h : Adds d d') (h' : Adds d' d'') : Adds d d'' := by
  obtain ⟨ops, hops, hadd⟩ := h
  obtain ⟨ops', hops', hadd'⟩ := h'
  refine ⟨ops ++ ops', by rw [hops', hops, List.append_assoc], fun op hop => ?_⟩
  rcases List.mem_append.mp hop with hop | hop
  · exact hadd op hop
  · exact hadd' op hop

theorem adds_traverseTree (d : Dtree σ) (entry : Path × Bool) :
    Ensures (Adds d) (fun _ => True) (traverseTree K d entry) := by
  unfold traverseTree
  split_ifs
  · exact Adds.refl d
  · split
    · exact Adds.refl d
    · trivial
    · dsimp only
      split_ifs
      · exact Adds.refl d
      · exact ⟨_, rfl, by simp⟩

theorem adds_watchSubtree (d : Dtree σ) (p : Path) :
    Ensures (Adds d) (fun _ => True) (watchSubtree K d p) := by
  refine Ensures.foldlM (fun d' e _ hd => ?_) (Adds.refl d)
  have hstep := @adds_traverseTree σ K d' e
  cases hr : traverseTree K d' e with
  | error e => trivial
  | ok d'' =>
    rw [hr] at hstep
    exact hd.trans hstep

theorem Rebuilt.free_mem (h : Rebuilt K d d') {ops : List CacheOp}
    (hops : d'.trace = d.trace ++ ops) : CacheOp.free ∈ ops := by
  obtain ⟨d₀, ⟨pre, hpre⟩, hr⟩ := h
  have hadds : Ensures (Adds { d₀.freeCache with kernel := K.reopen d₀.kernel }) (fun _ => True)
      ( reinitialize K d₀) := by
    refine Ensures.foldlM (fun d₁ p _ hd => ?_) (Adds.refl _)
    have hstep := @adds_watchSubtree σ K d₁ p
    cases hw : watchSubtree K d₁ p with
    | error e => trivial
    | ok d₂ =>
      rw [hw] at hstep
      exact hd.trans hstep
  rw [hr] at hadds
  obtain ⟨adds, htrace, -⟩ := hadds
  have he : d.trace ++ ops = d.trace ++ (pre ++ .free :: adds) := by
    rw [← hops, htrace, ← List.append_assoc, hpre]
    simp [Dtree.freeCache]
  rw [List.append_cancel_left he]
  simp

theorem removed_zapSubtree (hok : (zapSubtree K d pn).2 = true) {d' : Dtree σ}
    (h : Adds (zapSubtree K d pn).1 d') : Removed d d' pn := by
  obtain ⟨adds, htrace, -⟩ := h
  refine ⟨_, htrace.trans (List.append_assoc _ _ _), fun j w hw hm => ?_⟩
  have hslot := (@zapSlots_slots σ K pn 0 d.wlCache d.kernel).mpr hok j w hw hm
  rw [zero_add] at hslot
  exact List.mem_append_left _ (List.mem_map_of_mem hslot)

/-- After a failure something is left, and nothing has been rebuilt. -/
theorem half_zapped (hok : (zapSubtree K d pn).2 = false) {d' : Dtree σ}
    (h : Adds (zapSubtree K d pn).1 d') : ¬ (Removed d d' pn ∨ Rebuilt K d d') := by
  obtain ⟨adds, htrace, hadd⟩ := h
  have hops : d'.trace = d.trace ++
      ((zapSlots K pn 0 d.wlCache d.kernel).slots.map CacheOp.empty ++ adds) :=
    htrace.trans (List.append_assoc _ _ _)
  rintro (⟨ops, hremoved, hall⟩ | hrebuilt)
  · have hsame := List.append_cancel_left (hremoved.symm.trans hops)
    refine Bool.false_ne_true (hok.symm.trans ?_)
    refine (@zapSlots_slots σ K pn 0 d.wlCache d.kernel).mp fun j w hw hm => ?_
    have hin := hall j w hw hm
    rw [hsame, List.mem_append] at hin
    rcases hin with hin | hin
    · rw [zero_add]
      simpa using hin
    · obtain ⟨_, _, _, he⟩ := hadd _ hin
      cases he
  · have hin := hrebuilt.free_mem hops
    rw [List.mem_append] at hin
    rcases hin with hin | hin
    · simp at hin
    · obtain ⟨_, _, _, he⟩ := hadd _ hin
      cases he

/-- The recovery of the two event handlers. -/
theorem zapOrDiscard_recovers {r : Dtree σ × Ret} (h : zapOrDiscard K d pn = .ok r) :
    Removed d r.1 pn ∨ Rebuilt K d r.1 := by
  unfold zapOrDiscard at h
  split_ifs at h with hok
  · cases h
    exact .inl (removed_zapSubtree hok (Adds.refl _))
  · right
    unfold discard at h
    cases hr : reinitialize K (zapSubtree K d pn).1 with
    | error e =>
      rw [hr] at h
      cases h
    | ok d₁ =>
      rw [hr] at h
      cases h
      exact ⟨_, List.prefix_append _ _, hr⟩

theorem command_recovers_iff {d' : Dtree σ} (h : Adds (zapSubtree K d pn).1 d') :
    (Removed d d' pn ∨ Rebuilt K d d') ↔
      removesAll K d.kernel ((hits pn d.wlCache).map Watch.wd) = true := by
  have hflag : (zapSubtree K d pn).2 = removesAll K d.kernel ((hits pn d.wlCache).map Watch.wd) :=
    zapSlots_ok pn 0 d.wlCache d.kernel
  rw [← hflag]
  cases hok : (zapSubtree K d pn).2 with
  | true => exact iff_of_true (.inl (removed_zapSubtree hok h)) rfl
  | false => exact iff_of_false (half_zapped hok h) Bool.false_ne_true

theorem movedOut_recovers {ev : Event} {slot : Option ℕ} {j : ℕ} {dir : Path}
    (h : useSlot d ev slot = .ok (j, dir)) (hrun : (Caller.movedOut ev slot).run K d = .ok d') :
    Removed d d' (eventPath dir ev.name) ∨ Rebuilt K d d' := by
  have heq : (Caller.movedOut ev slot).run K d =
      (zapOrDiscard K d (eventPath dir ev.name) >>= fun r => .ok r.1) := by
    simp only [Caller.run, movedOut, h, ok_bind]
    rfl
  rw [heq] at hrun
  cases hz : zapOrDiscard K d (eventPath dir ev.name) with
  | error e =>
    rw [hz] at hrun
    cases hrun
  | ok r =>
    rw [hz] at hrun
    cases hrun
    exact zapOrDiscard_recovers hz

theorem moveSelf_recovers {ev : Event} {slot : Option ℕ} {j : ℕ} {path : Path}
    (h : useSlot d ev slot = .ok (j, path)) (hroot : isRootDirPath d.rootDirPaths path = true)
    (hrun : (Caller.moveSelf ev slot).run K d = .ok d') :
    Removed d d' path ∨ Rebuilt K d d' := by
  have heq : (Caller.moveSelf ev slot).run K d =
      (zapRootDirPath d path >>= fun d₁ => zapOrDiscard K d₁ path >>= fun r => .ok r.1) := by
    simp only [Caller.run, onMoveSelf, h, ok_bind, hroot, if_true, bind_assoc]
    rfl
  rw [heq] at hrun
  unfold zapRootDirPath at hrun
  -- the root directory is dropped from the list before its subtree is zapped
  split at hrun
  · cases hrun
  · next p _ =>
    split_ifs at hrun
    · cases hrun
    · rw [ok_bind] at hrun
      cases hz : zapOrDiscard K (d.dropRoot p) path with
      | error e =>
        rw [hz] at hrun
        cases hrun
      | ok r =>
        rw [hz] at hrun
        cases hrun
        have hrec := zapOrDiscard_recovers hz
        exact hrec

/-- A kernel that does not remove the watch `wd`. -/
def refusing (wd : ℤ) : Kernel ℕ := { counting with rmWatch := fun k v => (k, v ≠ wd) }

def twoDirs : Dtree ℕ where
  wlCache := [⟨1, "r/a".toList⟩, ⟨2, "r/a/b".toList⟩]
  rootDirPaths := [some "r".toList]
  ignoreRootDirs := 0
  kernel := 3
  trace := []

def twoDirsHalf : Dtree ℕ := (zapSubtree (refusing 2) twoDirs "r/a".toList).1

end Tlpi.Inotify
