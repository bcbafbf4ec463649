import Mathlib.Data.List.Flatten
import Mathlib.Data.List.Nodup
import Mathlib.Data.List.Pairwise
import Mathlib.Order.Lattice
import Mathlib.Order.Defs.LinearOrder

/-!
# Orders of intervals, and their locality

Each operation takes an interval of time, from `call` to `ret`.  A list of operations is in order if
no operation comes before one that had returned when it was called.

Such lists can be merged (`exists_merge`): given one list for every key, there is a list of all
operations that is in order and has every one of the given lists as its part.  The proof gives every
operation a point in its interval, so that along each list the points do not go back: the latest
call so far.  Then all operations are sorted by their points, without changing the order of those
with the same point.

This is why linearizability is a local property: a system is linearizable if each of its objects is.
-/

set_option autoImplicit false

namespace Intervals

variable {ι κ T : Type*} [LinearOrder T] (call ret : ι → T)

/-- No operation comes before one that had returned when it was called. -/
def InOrder (l : List ι) : Prop := l.Pairwise fun i j ↦ ¬ ret j < call i

/-- Every operation with its point: the latest call so far, and not before `m`. -/
def stampFrom (m : T) : List ι → List (T × ι)
  | [] => []
  | i :: rest => (max m (call i), i) :: stampFrom (max m (call i)) rest

/-- Every operation with its point. -/
def stamp : List ι → List (T × ι)
  | [] => []
  | i :: rest => stampFrom call (call i) (i :: rest)

variable {call ret} {l : List ι} {m : T}

theorem stampFrom_map_snd (call : ι → T) (m : T) (l : List ι) :
    (stampFrom call m l).map Prod.snd = l := by
  induction l generalizing m with
  | nil => rfl
  | cons i rest ih => rw [stampFrom, List.map_cons, ih]

theorem stamp_map_snd (call : ι → T) (l : List ι) : (stamp call l).map Prod.snd = l := by
  cases l with
  | nil => rfl
  | cons i rest => exact stampFrom_map_snd ..

theorem le_of_mem_stampFrom {x : T × ι} (hx : x ∈ stampFrom call m l) :
    m ≤ x.1 ∧ call x.2 ≤ x.1 := by
  induction l generalizing m with
  | nil => simp [stampFrom] at hx
  | cons i rest ih =>
    rcases List.mem_cons.mp hx with rfl | hx
    · exact ⟨le_max_left .., le_max_right ..⟩
    · exact ⟨(le_max_left ..).trans (ih hx).1, (ih hx).2⟩

theorem stampFrom_sorted (m : T) (l : List ι) :
    (stampFrom call m l).Pairwise fun x y ↦ x.1 ≤ y.1 := by
  induction l generalizing m with
  | nil => exact List.Pairwise.nil
  | cons i rest ih =>
    exact List.pairwise_cons.mpr ⟨fun y hy ↦ (le_of_mem_stampFrom hy).1, ih _⟩

theorem stamp_sorted (l : List ι) : (stamp call l).Pairwise fun x y ↦ x.1 ≤ y.1 := by
  cases l with
  | nil => exact List.Pairwise.nil
  | cons i rest => exact stampFrom_sorted ..

theorem mem_stampFrom_le (hord : InOrder call ret l) (hint : ∀ i ∈ l, call i ≤ ret i)
    (hm : ∀ i ∈ l, m ≤ ret i) {x : T × ι} (hx : x ∈ stampFrom call m l) : x.1 ≤ ret x.2 := by
  induction l generalizing m with
  | nil => simp [stampFrom] at hx
  | cons i rest ih =>
    obtain ⟨hi, hrest⟩ := List.pairwise_cons.mp hord
    rcases List.mem_cons.mp hx with rfl | hx
    · exact max_le (hm i (by simp)) (hint i (by simp))
    · refine ih hrest (fun j hj ↦ hint j (by simp [hj])) (fun j hj ↦ ?_) hx
      exact max_le (hm j (by simp [hj])) (not_lt.mp (hi j hj))

/-- **The points lie in the intervals.** -/
theorem mem_stamp (hord : InOrder call ret l) (hint : ∀ i ∈ l, call i ≤ ret i) {x : T × ι}
    (hx : x ∈ stamp call l) : call x.2 ≤ x.1 ∧ x.1 ≤ ret x.2 := by
  cases l with
  | nil => simp [stamp] at hx
  | cons i rest =>
    refine ⟨(le_of_mem_stampFrom hx).2, mem_stampFrom_le hord hint (fun j hj ↦ ?_) hx⟩
    rcases List.mem_cons.mp hj with rfl | hj
    · exact hint j (by simp)
    · exact not_lt.mp ((List.pairwise_cons.mp hord).1 j hj)

/-! ## Merging -/

/-- One of the parts, picked out of all of them. -/
theorem flatMap_filter_eq {α : Type*} [DecidableEq κ] {key : α → κ} {ks : List κ}
    (hnd : ks.Nodup) {part : κ → List α} (hkey : ∀ k ∈ ks, ∀ a ∈ part k, key a = k) {k : κ}
    (hk : k ∈ ks) : (ks.flatMap part).filter (fun a ↦ key a = k) = part k := by
  have hother : ∀ {ks : List κ}, k ∉ ks → (∀ k' ∈ ks, ∀ a ∈ part k', key a = k') →
      (ks.flatMap part).filter (fun a ↦ key a = k) = [] := by
    intro ks hk hkey
    refine List.filter_eq_nil_iff.mpr fun a ha ↦ ?_
    obtain ⟨k', hk', ha⟩ := List.mem_flatMap.mp ha
    rw [decide_eq_true_iff, hkey k' hk' a ha]
    rintro rfl
    exact hk hk'
  obtain ⟨before, after, rfl⟩ := List.append_of_mem hk
  obtain ⟨-, hnd', hdisj⟩ := List.nodup_append.mp hnd
  obtain ⟨hafter, -⟩ := List.nodup_cons.mp hnd'
  have hbefore : k ∉ before := fun h ↦ hdisj k h k (by simp) rfl
  rw [List.flatMap_append, List.filter_append, hother hbefore fun k' h' ↦ hkey k' (by simp [h']),
    List.flatMap_cons, List.filter_append, hother hafter fun k' h' ↦ hkey k' (by simp [h']),
    List.nil_append, List.append_nil]
  exact List.filter_eq_self.mpr fun a ha ↦ decide_eq_true (hkey k (by simp) a ha)

/-- **Locality.**  Lists that are in order can be merged into one that is. -/
theorem exists_merge [DecidableEq κ] (key : ι → κ) {ks : List κ} (hnd : ks.Nodup)
    {part : κ → List ι} (hkey : ∀ k ∈ ks, ∀ i ∈ part k, key i = k)
    (hint : ∀ k ∈ ks, ∀ i ∈ part k, call i ≤ ret i)
    (hord : ∀ k ∈ ks, InOrder call ret (part k)) :
    ∃ l : List ι, l.Perm (ks.flatMap part) ∧ InOrder call ret l ∧
      ∀ k ∈ ks, l.filter (fun i ↦ key i = k) = part k := by
  let stamped := ks.flatMap fun k ↦ stamp call (part k)
  let sorted := stamped.mergeSort fun x y ↦ decide (x.1 ≤ y.1)
  have hperm : sorted.Perm stamped := List.mergeSort_perm ..
  have hmap : stamped.map Prod.snd = ks.flatMap part := by
    simp only [stamped, List.map_flatMap, stamp_map_snd]
  have htrans : ∀ a b c : T × ι, decide (a.1 ≤ b.1) = true → decide (b.1 ≤ c.1) = true →
      decide (a.1 ≤ c.1) = true := by
    simp only [decide_eq_true_iff]
    exact fun a b c h h' ↦ h.trans h'
  have htotal : ∀ a b : T × ι, (decide (a.1 ≤ b.1) || decide (b.1 ≤ a.1)) = true := by
    simp only [Bool.or_eq_true, decide_eq_true_iff]
    exact fun a b ↦ le_total a.1 b.1
  refine ⟨sorted.map Prod.snd, hmap ▸ hperm.map Prod.snd, ?_, fun k hk ↦ ?_⟩
  · -- points lie in their intervals and do not go back
    have hpoint : ∀ x ∈ sorted, call x.2 ≤ x.1 ∧ x.1 ≤ ret x.2 := by
      intro x hx
      obtain ⟨k, hk, hx⟩ := List.mem_flatMap.mp (hperm.mem_iff.mp hx)
      exact mem_stamp (hord k hk) (hint k hk) hx
    rw [InOrder, List.pairwise_map]
    refine (List.pairwise_mergeSort htrans htotal stamped).imp_of_mem fun hx hy hle hlt ↦ ?_
    have h1 := (hpoint _ hx).1
    have h2 := (hpoint _ hy).2
    exact absurd (h1.trans (of_decide_eq_true hle)) (not_le.mpr (h2.trans_lt hlt))
  · -- the part is still there, and nothing else of its key
    have hkey' : ∀ k' ∈ ks, ∀ x ∈ stamp call (part k'), key x.2 = k' := by
      intro k' hk' x hx
      refine hkey k' hk' x.2 ?_
      rw [← stamp_map_snd call (part k')]
      exact List.mem_map_of_mem hx
    have hpart : stamped.filter (fun x ↦ key x.2 = k) = stamp call (part k) :=
      flatMap_filter_eq hnd hkey' hk
    have hsub : (stamp call (part k)).Sublist sorted := by
      refine List.sublist_mergeSort htrans htotal ?_ ?_
      · exact (stamp_sorted (part k)).imp fun h ↦ decide_eq_true h
      · rw [← hpart]
        exact List.filter_sublist
    have heq : sorted.filter (fun x ↦ key x.2 = k) = stamp call (part k) := by
      refine (List.Sublist.eq_of_length ?_ ?_).symm
      · have := hsub.filter fun x ↦ decide (key x.2 = k)
        rwa [List.filter_eq_self.mpr fun x hx ↦ decide_eq_true (hkey' k hk x hx)] at this
      · rw [← hpart]
        exact (hperm.filter _).length_eq.symm
    rw [List.filter_map, ← stamp_map_snd call (part k), ← heq]
    rfl

end Intervals
