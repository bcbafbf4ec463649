import Mathlib.Data.List.AList
import Mathlib.Data.List.Induction
import Mathlib.Data.List.Sort
import Mathlib.Data.List.TakeWhile

/-!
# Grouping by key

The elements of a list have keys and values.  A *grouping* of the list (`IsGrouping`) is a list that
has each of its keys once, with the values that go with it, where the order of neither the keys nor
the values matters.

* All that a function of keys and values that does not depend on that order can make of a list is
  the same for any two groupings of it, up to order (`IsGrouping.map_perm`).
* Groupings of the parts of a list, where a key is in one part only, make a grouping of the list
  (`IsGrouping.flatMap`).

Two ways to group a list are to put all values into a map (`collect`), and to cut a sorted list into
runs of equal keys (`runs`).
-/

set_option autoImplicit false

namespace Grouping

variable {α κ ν : Type*} [DecidableEq κ] {key : α → κ} {val : α → ν}

/-- The values that go with a key, in the order of the list. -/
def valuesOf (key : α → κ) (val : α → ν) (l : List α) (k : κ) : List ν :=
  (l.filter (key · = k)).map val

theorem valuesOf_append (l l' : List α) (k : κ) :
    valuesOf key val (l ++ l') k = valuesOf key val l k ++ valuesOf key val l' k := by
  simp [valuesOf]

/-- All elements have the key. -/
theorem valuesOf_of_eq {l : List α} {k : κ} (h : ∀ a ∈ l, key a = k) :
    valuesOf key val l k = l.map val := by
  rw [valuesOf, List.filter_eq_self.mpr fun a ha ↦ decide_eq_true (h a ha)]

/-- No element has the key. -/
theorem valuesOf_of_ne {l : List α} {k : κ} (h : ∀ a ∈ l, key a ≠ k) :
    valuesOf key val l k = [] := by
  rw [valuesOf, List.filter_eq_nil_iff.mpr fun a ha ↦ by simpa using h a ha, List.map_nil]

/-- `g` has each key of `l` once, with the values that go with it. -/
structure IsGrouping (key : α → κ) (val : α → ν) (l : List α) (g : List (κ × List ν)) : Prop where
  /-- No key is there twice. -/
  nodup : (g.map Prod.fst).Nodup
  /-- The keys are those of the list. -/
  mem_iff : ∀ k, k ∈ g.map Prod.fst ↔ k ∈ l.map key
  /-- The values are those of the list. -/
  values : ∀ p ∈ g, p.2.Perm (valuesOf key val l p.1)

variable {l l' : List α} {g g' : List (κ × List ν)}

/-- Order does not matter. -/
theorem IsGrouping.perm (h : IsGrouping key val l g) (hl : l.Perm l') (hg : g.Perm g') :
    IsGrouping key val l' g' where
  nodup := (hg.map Prod.fst).nodup_iff.mp h.nodup
  mem_iff k := by rw [← (hg.map Prod.fst).mem_iff, h.mem_iff, (hl.map key).mem_iff]
  values p hp := (h.values p (hg.mem_iff.mpr hp)).trans ((hl.filter _).map val)

/-- **What is made of one grouping is made of any other.** -/
theorem IsGrouping.map_perm {β : Type*} {f : κ → List ν → β}
    (hf : ∀ k vs vs', vs.Perm vs' → f k vs = f k vs') (h : IsGrouping key val l g)
    (h' : IsGrouping key val l g') :
    (g.map fun p ↦ f p.1 p.2).Perm (g'.map fun p ↦ f p.1 p.2) := by
  -- the values can as well be looked up in the list
  have hlook : ∀ {g}, IsGrouping key val l g → (g.map fun p ↦ f p.1 p.2) =
      (g.map Prod.fst).map fun k ↦ f k (valuesOf key val l k) := fun h ↦ by
    rw [List.map_map]
    exact List.map_congr_left fun p hp ↦ hf _ _ _ (h.values p hp)
  have hkeys : (g.map Prod.fst).Perm (g'.map Prod.fst) :=
    (List.perm_ext_iff_of_nodup h.nodup h'.nodup).mpr fun k ↦ by rw [h.mem_iff, h'.mem_iff]
  rw [hlook h, hlook h']
  exact hkeys.map _

/-- **Groupings of the parts make a grouping of the whole**, where `part` says which part a key is
in. -/
theorem IsGrouping.flatMap {ι : Type*} [DecidableEq ι] (part : κ → ι) {is : List ι}
    {g : ι → List (κ × List ν)} (hnodup : is.Nodup) (hpart : ∀ a ∈ l, part (key a) ∈ is)
    (h : ∀ i ∈ is, IsGrouping key val (l.filter fun a ↦ part (key a) = i) (g i)) :
    IsGrouping key val l (is.flatMap g) := by
  have hin : ∀ i ∈ is, ∀ k, k ∈ (g i).map Prod.fst ↔ k ∈ l.map key ∧ part k = i := by
    intro i hi k
    rw [(h i hi).mem_iff]
    simp only [List.mem_map, List.mem_filter, decide_eq_true_eq]
    constructor
    · rintro ⟨a, ⟨ha, rfl⟩, rfl⟩
      exact ⟨⟨a, ha, rfl⟩, rfl⟩
    · rintro ⟨⟨a, ha, rfl⟩, rfl⟩
      exact ⟨a, ⟨ha, rfl⟩, rfl⟩
  refine ⟨?_, fun k ↦ ?_, fun p hp ↦ ?_⟩
  · rw [List.map_flatMap, List.nodup_flatMap]
    refine ⟨fun i hi ↦ (h i hi).nodup, hnodup.imp_of_mem fun {i j} hi hj hne ↦ ?_⟩
    intro k hk hk'
    exact hne (((hin i hi k).mp hk).2.symm.trans ((hin j hj k).mp hk').2)
  · rw [List.map_flatMap, List.mem_flatMap]
    constructor
    · rintro ⟨i, hi, hk⟩
      exact ((hin i hi k).mp hk).1
    · intro hk
      obtain ⟨a, ha, rfl⟩ := List.mem_map.mp hk
      exact ⟨_, hpart a ha, (hin _ (hpart a ha) _).mpr ⟨hk, rfl⟩⟩
  · obtain ⟨i, hi, hp⟩ := List.mem_flatMap.mp hp
    have hi' : part p.1 = i := ((hin i hi p.1).mp (List.mem_map_of_mem hp)).2
    -- all elements with this key are in this part
    have hvals : valuesOf key val (l.filter fun a ↦ part (key a) = i) p.1 =
        valuesOf key val l p.1 := by
      rw [valuesOf, valuesOf, List.filter_filter]
      congr 1
      refine List.filter_congr fun a _ ↦ ?_
      by_cases ha : key a = p.1 <;> simp [ha, hi']
    exact hvals ▸ (h i hi).values p hp

/-- The parts of a list, one for each key, are the list. -/
theorem perm_flatMap_filter {ks : List κ} (hnd : ks.Nodup) {l : List α}
    (h : ∀ a ∈ l, key a ∈ ks) : (ks.flatMap fun k ↦ l.filter (key · = k)).Perm l := by
  induction ks generalizing l with
  | nil =>
    obtain rfl : l = [] := List.eq_nil_iff_forall_not_mem.mpr fun a ha ↦ by simpa using h a ha
    rfl
  | cons k ks ih =>
    obtain ⟨hk, hnd⟩ := List.nodup_cons.mp hnd
    -- the other parts are those of what is left
    have hrest : (ks.flatMap fun k' ↦ l.filter (key · = k')) =
        ks.flatMap fun k' ↦ (l.filter fun a ↦ !decide (key a = k)).filter (key · = k') := by
      refine List.flatMap_congr fun k' hk' ↦ ?_
      rw [List.filter_filter]
      refine List.filter_congr fun a _ ↦ ?_
      have hne : k' ≠ k := fun heq ↦ hk (heq ▸ hk')
      by_cases ha : key a = k'
      · simp [ha, hne]
      · simp [ha]
    rw [List.flatMap_cons, hrest]
    refine ((ih hnd fun a ha ↦ ?_).append_left _).trans (List.filter_append_perm _ l)
    obtain ⟨ha, hne⟩ := List.mem_filter.mp ha
    exact (List.mem_cons.mp (h a ha)).resolve_left (by simpa using hne)

/-! ## In a map -/

/-- Put a value behind those that a key has already. -/
def push (m : AList fun _ : κ ↦ List ν) (k : κ) (v : ν) : AList fun _ : κ ↦ List ν :=
  m.insert k ((m.lookup k).getD [] ++ [v])

/-- All values, by key. -/
def collect (key : α → κ) (val : α → ν) (l : List α) : AList fun _ : κ ↦ List ν :=
  l.foldl (fun m a ↦ push m (key a) (val a)) ∅

/-- The entries of a map. -/
def pairs (m : AList fun _ : κ ↦ List ν) : List (κ × List ν) := m.entries.map fun e ↦ (e.1, e.2)

theorem collect_concat (l : List α) (a : α) :
    collect key val (l ++ [a]) = push (collect key val l) (key a) (val a) := by
  simp [collect]

/-- What a key has is what goes with it in the list. -/
theorem lookup_collect (l : List α) (k : κ) :
    (collect key val l).lookup k = if k ∈ l.map key then some (valuesOf key val l k) else none := by
  induction l using List.reverseRecOn with
  | nil => rfl
  | append_singleton l a ih =>
    rw [collect_concat, push]
    by_cases hk : k = key a
    · subst hk
      rw [AList.lookup_insert, ih]
      by_cases hmem : key a ∈ l.map key
      · simp [valuesOf, hmem]
      · have hnone : valuesOf key val l (key a) = [] :=
          valuesOf_of_ne fun b hb heq ↦ hmem (List.mem_map.mpr ⟨b, hb, heq⟩)
        rw [valuesOf_append, hnone]
        simp [hmem, valuesOf]
    · rw [AList.lookup_insert_ne hk, ih]
      simp [valuesOf, hk, Ne.symm hk]

theorem mem_pairs {m : AList fun _ : κ ↦ List ν} {p : κ × List ν} :
    p ∈ pairs m ↔ m.lookup p.1 = some p.2 := by
  rw [← Option.mem_def, AList.mem_lookup_iff, pairs, List.mem_map]
  constructor
  · rintro ⟨e, he, rfl⟩
    exact he
  · intro he
    exact ⟨⟨p.1, p.2⟩, he, rfl⟩

omit [DecidableEq κ] in
theorem map_fst_pairs (m : AList fun _ : κ ↦ List ν) : (pairs m).map Prod.fst = m.keys := by
  rw [pairs, List.map_map]
  rfl

/-- **A map groups.** -/
theorem isGrouping_collect (key : α → κ) (val : α → ν) (l : List α) :
    IsGrouping key val l (pairs (collect key val l)) where
  nodup := by
    rw [map_fst_pairs]
    exact (collect key val l).keys_nodup
  mem_iff k := by
    rw [map_fst_pairs, ← AList.mem_keys, ← AList.lookup_isSome, lookup_collect]
    split <;> simp [*]
  values p hp := by
    rw [mem_pairs, lookup_collect] at hp
    split at hp
    · exact (Option.some_inj.mp hp) ▸ List.Perm.refl _
    · simp at hp

/-! ## In a sorted list -/

/-- Cut a list into runs of equal keys. -/
def runs (key : α → κ) (val : α → ν) : List α → List (κ × List ν)
  | [] => []
  | a :: l =>
    (key a, (a :: l.takeWhile (key · = key a)).map val) ::
      runs key val (l.dropWhile (key · = key a))
termination_by l => l.length
decreasing_by
  have := (List.dropWhile_suffix (l := l) (key · = key a)).length_le
  simp
  omega

/-- In a sorted list, what follows the first run has other keys. -/
theorem ne_of_mem_dropWhile {κ : Type*} [LinearOrder κ] {key : α → κ} {a : α} {l : List α}
    (hl : (a :: l).Pairwise (key · ≤ key ·)) {b : α} (hb : b ∈ l.dropWhile (key · = key a)) :
    key b ≠ key a := by
  obtain ⟨hle, hl⟩ := List.pairwise_cons.mp hl
  have hsuffix := List.dropWhile_suffix (l := l) (key · = key a)
  cases hrest : l.dropWhile (key · = key a) with
  | nil => simp [hrest] at hb
  | cons c rest =>
    rw [hrest] at hb hsuffix
    -- the first element behind the run has a greater key, and so have those behind it
    have hc : key a < key c := by
      refine lt_of_le_of_ne (hle c (hsuffix.subset List.mem_cons_self)) fun heq ↦ ?_
      have := List.head_dropWhile_not (key · = key a) (l := l) (by simp [hrest])
      simp only [hrest, List.head_cons, decide_eq_false_iff_not] at this
      exact this heq.symm
    rcases List.mem_cons.mp hb with rfl | hb
    · exact hc.ne'
    · exact (hc.trans_le ((List.pairwise_cons.mp (hl.sublist hsuffix.sublist)).1 b hb)).ne'

/-- **A sorted list is grouped by its runs.** -/
theorem isGrouping_runs {κ : Type*} [LinearOrder κ] {key : α → κ} {l : List α}
    (hl : l.Pairwise (key · ≤ key ·)) : IsGrouping key val l (runs key val l) := by
  -- by induction on the number of runs
  fun_induction runs key val l with
  | case1 => exact ⟨by simp, by simp, by simp⟩
  | case2 a l ih =>
    have hrest := fun b ↦ ne_of_mem_dropWhile (b := b) hl
    have hrun : ∀ b ∈ a :: l.takeWhile (key · = key a), key b = key a := by
      intro b hb
      rcases List.mem_cons.mp hb with rfl | hb
      · rfl
      · simpa using List.mem_takeWhile_imp hb
    have hsplit : a :: l = (a :: l.takeWhile (key · = key a)) ++ l.dropWhile (key · = key a) := by
      simp [List.takeWhile_append_dropWhile]
    have ih := ih (hl.sublist ((List.dropWhile_sublist _).trans (List.sublist_cons_self a l)))
    refine ⟨?_, fun k ↦ ?_, fun p hp ↦ ?_⟩
    · rw [List.map_cons, List.nodup_cons]
      refine ⟨fun hmem ↦ ?_, ih.nodup⟩
      obtain ⟨b, hb, heq⟩ := List.mem_map.mp ((ih.mem_iff _).mp hmem)
      exact hrest b hb heq
    · rw [List.map_cons, List.mem_cons, ih.mem_iff, hsplit, List.map_append, List.mem_append]
      refine or_congr_left ⟨?_, fun hk ↦ ?_⟩
      · rintro rfl
        exact List.mem_map_of_mem List.mem_cons_self
      · obtain ⟨b, hb, rfl⟩ := List.mem_map.mp hk
        exact hrun b hb
    · rw [hsplit, valuesOf_append]
      rcases List.mem_cons.mp hp with rfl | hp
      · rw [valuesOf_of_eq hrun, valuesOf_of_ne hrest, List.append_nil]
      · have hne : key a ≠ p.1 := fun heq ↦ by
          obtain ⟨b, hb, hbk⟩ := List.mem_map.mp ((ih.mem_iff _).mp (List.mem_map_of_mem hp))
          exact hrest b hb (hbk.trans heq.symm)
        rw [valuesOf_of_ne fun b hb heq ↦ hne ((hrun b hb).symm.trans heq), List.nil_append]
        exact ih.values p hp

end Grouping
