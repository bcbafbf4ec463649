import DistLabs.MapReduce.Files
import DistLabs.MapReduce.Sequential

/-!
# Many workers and one program

The lines of all output files are the lines that `mrsequential` writes
(`mapReduce_eq_mrsequential`).

Both are made of a grouping of what `mapf` emits.  `mrsequential` groups by sorting
(`isGrouping_sequential`).  The workers group twice: by the number of the reduce task, and then in
the map of each reduce task (`isGrouping_order`).  A key is in one part only, so that these
groupings make one of the whole.
-/

set_option autoImplicit false

namespace DistLabs.MR

open Grouping

/-! ## Lines -/

/-- The lines of a file. -/
def lines : Bytes → List Bytes
  | [] => []
  | b :: bytes =>
    if b = 10 then [] :: lines bytes
    else match lines bytes with
      | [] => [[b]]
      | l :: ls => (b :: l) :: ls

theorem lines_ne_nil {bytes : Bytes} (h : bytes ≠ []) : lines bytes ≠ [] := by
  cases bytes with
  | nil => exact absurd rfl h
  | cons b bytes =>
    rw [lines]
    split
    · simp
    · split <;> simp

/-- What follows a newline is in other lines. -/
theorem lines_append (a b : Bytes) : lines (a ++ [10] ++ b) = lines (a ++ [10]) ++ lines b := by
  induction a with
  | nil => simp [lines]
  | cons c a ih =>
    simp only [List.cons_append, lines, ih]
    split
    · rfl
    · cases hl : lines (a ++ [10]) with
      | nil => exact absurd hl (lines_ne_nil (by simp))
      | cons l ls => rfl

theorem utf8_append (s t : String) : utf8 (s ++ t) = utf8 s ++ utf8 t := by
  simp [utf8]

theorem lines_text (l : List (String × String)) :
    lines (text l) = l.flatMap fun p ↦ lines (line p.1 p.2) := by
  induction l with
  | nil => rfl
  | cons p l ih =>
    have hline : line p.1 p.2 = utf8 (p.1 ++ " " ++ p.2) ++ [10] := utf8_append _ "\n"
    rw [List.flatMap_cons, ← ih, text, List.flatMap_cons, hline, lines_append]
    rfl

/-! ## Groupings -/

theorem yOf_mem {Y : Nat} (hY : 1 ≤ Y) (key : String) : ∃ y ∈ List.range' 1 Y,
    yOf key Y = some y := by
  refine ⟨_, ?_, yOf_of_pos hY key⟩
  have := Nat.mod_lt (ihash key) hY
  rw [List.mem_range'_1]
  omega

variable (input : String → Bytes) (fnames : List String) (mapf : MapFunc) (reducef : ReduceFunc)

/-- The parts of all files that are for one reduce task are its part of what is emitted. -/
theorem flatMap_part (Y y : Nat) :
    ((List.range' 1 fnames.length).flatMap fun x ↦ part input mapf Y (fnames.getD (x - 1) "") y) =
      (emitted input fnames mapf).filter (yOf ·.key Y = some y) := by
  have hnames : (List.range' 1 fnames.length).map (fun x ↦ fnames.getD (x - 1) "") = fnames := by
    refine List.ext_getElem (by simp) fun i h1 h2 ↦ ?_
    simp [List.getD_eq_getElem?_getD, h2]
  conv_rhs => rw [← hnames]
  rw [emitted, List.filter_flatMap, List.flatMap_map]
  rfl

/-- Groupings of all partitions group what is emitted. -/
theorem isGrouping_partitions {Y : Nat} (hY : 1 ≤ Y) (kvs : List KeyValue)
    {g : Nat → List (String × List String)} (hg : ∀ y ∈ List.range' 1 Y,
      IsGrouping KeyValue.key KeyValue.value (kvs.filter (yOf ·.key Y = some y)) (g y)) :
    IsGrouping KeyValue.key KeyValue.value kvs ((List.range' 1 Y).flatMap g) := by
  refine IsGrouping.flatMap (fun key ↦ (yOf key Y).getD 0) List.nodup_range' (fun kv _ ↦ ?_)
    fun y hy ↦ ?_
  · obtain ⟨y, hy, heq⟩ := yOf_mem hY kv.key
    rwa [heq, Option.getD_some]
  · simpa only [yOf_of_pos hY, Option.getD_some, Option.some_inj] using hg y hy

/-- What a worker iterates over groups its partition. -/
theorem isGrouping_order (range : RangeOrder) (kvs : List KeyValue) :
    IsGrouping KeyValue.key KeyValue.value kvs
      (range.order (pairs (collect KeyValue.key KeyValue.value kvs))) :=
  (isGrouping_collect _ _ _).perm (List.Perm.refl _) (range.perm _).symm

/-- Each key of a reduce task is in one line. -/
theorem reduced_keys (range : Nat → RangeOrder) (y : Nat) (kvs : List KeyValue) :
    ((reduced range reducef y kvs).map Prod.fst).Nodup ∧
      ∀ key, key ∈ (reduced range reducef y kvs).map Prod.fst ↔ key ∈ kvs.map KeyValue.key := by
  have h := isGrouping_order (range y) kvs
  have hfst : (reduced range reducef y kvs).map Prod.fst = ((range y).order (pairs
      (collect KeyValue.key KeyValue.value kvs))).map Prod.fst := by
    rw [reduced, List.map_map]
    rfl
  rw [hfst]
  exact ⟨h.nodup, h.mem_iff⟩

/-- The sequential program groups what is emitted. -/
theorem isGrouping_sequential (s : KeySort) (kvs : List KeyValue) :
    IsGrouping KeyValue.key KeyValue.value kvs (runs KeyValue.key KeyValue.value (s.sort kvs)) :=
  (isGrouping_runs (s.sorted kvs)).perm (s.perm kvs) (List.Perm.refl _)

/-- The lines of the output file `k`, if `kvs` is what is emitted. -/
def outLines (range : Nat → RangeOrder) (Y : Nat) (kvs : List KeyValue) (k : Nat) :
    List (String × String) :=
  reduced range reducef (k + 1) (kvs.filter (yOf ·.key Y = some (k + 1)))

/-- A key that is emitted is in one line of one output file, that of its reduce task. -/
theorem outLines_key (range : Nat → RangeOrder) {Y : Nat} (hY : 1 ≤ Y) {kvs : List KeyValue}
    {key : String} (hkey : key ∈ kvs.map KeyValue.key) :
    ∃ k < Y, ((outLines reducef range Y kvs k).map Prod.fst).count key = 1 ∧
      ∀ k' < Y, k' ≠ k → key ∉ (outLines reducef range Y kvs k').map Prod.fst := by
  have hkeys := fun k ↦ reduced_keys reducef range (k + 1) (kvs.filter (yOf ·.key Y = some (k + 1)))
  have hin : ∀ k, key ∈ (kvs.filter (yOf ·.key Y = some (k + 1))).map KeyValue.key ↔
      yOf key Y = some (k + 1) := by
    intro k
    obtain ⟨kv, hkv, rfl⟩ := List.mem_map.mp hkey
    simp only [List.mem_map, List.mem_filter, decide_eq_true_eq]
    constructor
    · rintro ⟨kv', ⟨-, hy⟩, heq⟩
      exact heq ▸ hy
    · intro hy
      exact ⟨kv, ⟨hkv, hy⟩, rfl⟩
  obtain ⟨y, hy, heq⟩ := yOf_mem hY key
  obtain ⟨h1, h2⟩ := List.mem_range'_1.mp hy
  refine ⟨y - 1, by omega, ?_, fun k' _ hne hmem' ↦ ?_⟩
  · refine List.count_eq_one_of_mem (hkeys _).1 (((hkeys _).2 key).mpr ((hin _).mpr ?_))
    rw [heq, Nat.sub_add_cancel h1]
  · have hk' := (hin k').mp (((hkeys k').2 key).mp hmem')
    rw [heq, Option.some_inj] at hk'
    omega

variable {reducef} (hreduce : ∀ key vs vs', vs.Perm vs' → reducef key vs = reducef key vs')

include hreduce

/-- A line is about a key that is emitted, and about all its values. -/
theorem mem_outLines (range : Nat → RangeOrder) {Y : Nat} (hY : 1 ≤ Y) {kvs : List KeyValue}
    {k : Nat} (hk : k < Y) {p : String × String} (hp : p ∈ outLines reducef range Y kvs k) :
    p.1 ∈ kvs.map KeyValue.key ∧
      p.2 = reducef p.1 (valuesOf KeyValue.key KeyValue.value kvs p.1) := by
  have h := isGrouping_partitions hY kvs fun y _ ↦ isGrouping_order (range y) _
  obtain ⟨q, hq, rfl⟩ := List.mem_map.mp hp
  have hk' : k + 1 ∈ List.range' 1 Y := List.mem_range'_1.mpr ⟨Nat.le_add_left 1 k, by omega⟩
  have hmem : q ∈ (List.range' 1 Y).flatMap fun y ↦ (range y).order
      (pairs (collect KeyValue.key KeyValue.value (kvs.filter (yOf ·.key Y = some y)))) :=
    List.mem_flatMap.mpr ⟨k + 1, hk', hq⟩
  exact ⟨(h.mem_iff q.1).mp (List.mem_map_of_mem hmem), hreduce _ _ _ (h.values q hmem)⟩

/-- **The reduce tasks and the loops of the sequential program** write the same lines, however the
partitions are grouped. -/
theorem groupings_perm_reduceRuns (s : KeySort) {Y : Nat} (hY : 1 ≤ Y) {kvs : List KeyValue}
    {g : Nat → List (String × List String)} (hg : ∀ y ∈ List.range' 1 Y,
      IsGrouping KeyValue.key KeyValue.value (kvs.filter (yOf ·.key Y = some y)) (g y)) :
    ((List.range Y).flatMap fun k ↦ (g (k + 1)).map fun p ↦ (p.1, reducef p.1 p.2)).Perm
      (reduceRuns reducef (s.sort kvs) 0) := by
  have hperm := IsGrouping.map_perm (f := fun key vs ↦ (key, reducef key vs))
    (fun key vs vs' h ↦ by rw [hreduce key vs vs' h]) (isGrouping_partitions hY _ hg)
    (isGrouping_sequential s kvs)
  rw [List.map_flatMap, List.range'_eq_map_range, List.flatMap_map] at hperm
  rw [reduceRuns_eq, List.drop_zero]
  simp only [Nat.add_comm 1] at hperm
  exact hperm

/-- So do files of which each has the lines of one partition. -/
theorem lines_perm_mrsequential (s : KeySort) {Y : Nat} (hY : 1 ≤ Y)
    {g : Nat → List (String × List String)} (hg : ∀ y ∈ List.range' 1 Y,
      IsGrouping KeyValue.key KeyValue.value
        ((emitted input fnames mapf).filter (yOf ·.key Y = some y)) (g y))
    {out : Nat → Bytes}
    (hout : ∀ k < Y, out k = text ((g (k + 1)).map fun p ↦ (p.1, reducef p.1 p.2))) :
    ((List.range Y).flatMap fun k ↦ lines (out k)).Perm
      (lines (mrsequential s input fnames mapf reducef)) := by
  have hlines := (groupings_perm_reduceRuns hreduce s hY hg).flatMap_right
    fun p ↦ lines (line p.1 p.2)
  rw [List.flatMap_assoc] at hlines
  rw [mrsequential, lines_text]
  refine List.Perm.trans (List.Perm.of_eq ?_) hlines
  -- a file is cut into the lines it was put together from
  refine List.flatMap_congr fun k hk ↦ ?_
  rw [hout k (List.mem_range.mp hk), lines_text]

omit hreduce

/-! ## The programs -/

section Programs

variable (reducef) [Codec KeyValue]

/-- Map tasks `xs`, then reduce tasks `ys`. -/
def mapReduce (range : Nat → RangeOrder) (nReduce : Nat) (xs ys : List Nat) (d : Disk) :
    Option Disk := do
  let d ← mapPhase input fnames nReduce mapf xs d
  reducePhase range fnames.length reducef ys d

/-- All tasks succeed, and leave the output files. -/
theorem mapReduce_spec (range : Nat → RangeOrder) {nReduce : Nat} (hY : 1 ≤ nReduce)
    {xs ys : List Nat} (hxs : xs.Perm (List.range' 1 fnames.length))
    (hys : ys.Perm (List.range' 1 nReduce)) (d : Disk) :
    ∃ d', mapReduce input fnames mapf reducef range nReduce xs ys d = some d' ∧
      ∀ k < nReduce, d' (outName k) =
        some (text (outLines reducef range nReduce (emitted input fnames mapf) k)) := by
  have hmem : ∀ {y}, y ∈ ys ↔ 1 ≤ y ∧ y ≤ nReduce := by
    intro y
    rw [hys.mem_iff, List.mem_range'_1]
    omega
  obtain ⟨d₁, hmap, hd₁⟩ := mapPhase_spec input mapf d hY fnames xs
  obtain ⟨d', hreduce, hd'⟩ := reducePhase_spec range reducef (X := fnames.length) (d := d₁)
    (fun y hy ↦ (hmem.mp hy).1)
    fun y hy x h1 h2 ↦ hd₁ x (hxs.mem_iff.mpr (List.mem_range'_1.mpr ⟨h1, by omega⟩)) y
      (hmem.mp hy).1 (hmem.mp hy).2
  have hrun : mapReduce input fnames mapf reducef range nReduce xs ys d = some d' := by
    simp only [mapReduce, hmap, Option.bind_eq_bind, Option.bind_some, hreduce]
  refine ⟨d', hrun, fun k hk ↦ ?_⟩
  have h := hd' (k + 1) (hmem.mpr ⟨by omega, hk⟩)
  rwa [flatMap_part, Nat.add_sub_cancel] at h

/-- **The distributed program and the sequential one.**  Whatever is on the disk before, whatever
the order of the tasks and of the entries of the maps, and however equal keys are sorted: all tasks
succeed; every key that is emitted is in one line of one output file; every line is about such a key
and what `reducef` makes of all its values; and the lines of all output files are the lines that the
sequential program writes. -/
theorem mapReduce_eq_mrsequential (range : Nat → RangeOrder) (s : KeySort) (nReduce : Nat)
    (hY : 1 ≤ nReduce) (hreduce : ∀ key vs vs', vs.Perm vs' → reducef key vs = reducef key vs')
    (xs ys : List Nat) (hxs : xs.Perm (List.range' 1 fnames.length))
    (hys : ys.Perm (List.range' 1 nReduce)) (d : Disk) :
    ∃ (d' : Disk) (out : Nat → List (String × String)),
      mapReduce input fnames mapf reducef range nReduce xs ys d = some d' ∧
      (∀ k < nReduce, d' (outName k) = some (text (out k))) ∧
      (∀ key ∈ (emitted input fnames mapf).map KeyValue.key,
        ∃ k < nReduce, ((out k).map Prod.fst).count key = 1 ∧
          ∀ k' < nReduce, k' ≠ k → key ∉ (out k').map Prod.fst) ∧
      (∀ k < nReduce, ∀ p ∈ out k, p.1 ∈ (emitted input fnames mapf).map KeyValue.key ∧
        p.2 = reducef p.1
          (valuesOf KeyValue.key KeyValue.value (emitted input fnames mapf) p.1)) ∧
      ((List.range nReduce).flatMap fun k ↦ lines ((d' (outName k)).getD [])).Perm
        (lines (mrsequential s input fnames mapf reducef)) := by
  obtain ⟨d', hrun, hout⟩ := mapReduce_spec input fnames mapf reducef range hY hxs hys d
  refine ⟨d', _, hrun, hout, fun key hkey ↦ outLines_key reducef range hY hkey,
    fun k hk p hp ↦ mem_outLines hreduce range hY hk hp, ?_⟩
  refine lines_perm_mrsequential input fnames mapf hreduce s hY
    (fun y _ ↦ isGrouping_order (range y) _) fun k hk ↦ ?_
  rw [hout k hk, Option.getD_some]
  rfl

end Programs

/-! ## An application -/

/-- The key in front of the value. -/
instance KeyValue.codec : Codec KeyValue :=
  Codec.ofLeftInverse (α := String × String) (fun kv ↦ (kv.key, kv.value))
    (fun p ↦ some ⟨p.1, p.2⟩) fun _ ↦ rfl

/-- Sort, and keep the order of equal keys. -/
def KeySort.stable : KeySort where
  sort kvs := kvs.mergeSort fun a b ↦ decide (a.key ≤ b.key)
  perm kvs := List.mergeSort_perm kvs _
  sorted kvs := by
    refine (List.pairwise_mergeSort (fun a b c hab hbc ↦ ?_) (fun a b ↦ ?_) kvs).imp fun h ↦ ?_
    · simp only [decide_eq_true_eq] at *
      exact hab.trans hbc
    · simpa using le_total a.key b.key
    · simpa using h

/-- The last entry first. -/
def RangeOrder.reversed : RangeOrder := ⟨List.reverse, List.reverse_perm⟩

/-- Every byte of a file is a word. -/
def countMap : MapFunc := fun _ content ↦ content.map fun b ↦ ⟨toString b.toNat, "1"⟩

/-- The number of times a word occurs. -/
def countReduce : ReduceFunc := fun _ values ↦ toString values.length

/-- Two short files. -/
def twoFiles (name : String) : Bytes := if name = "a" then [7, 8, 7] else [8, 9]

theorem mapReduce_eq_mrsequential_count :
    ∃ d, mapReduce twoFiles ["a", "b"] countMap countReduce (fun _ ↦ .reversed) 2 [2, 1] [1, 2]
        (fun _ ↦ none) = some d ∧
      (lines ((d (outName 0)).getD []) ++ lines ((d (outName 1)).getD [])).Perm
        (lines (mrsequential .stable twoFiles ["a", "b"] countMap countReduce)) := by
  have hcount : ∀ key vs vs', vs.Perm vs' → countReduce key vs = countReduce key vs' :=
    fun key vs vs' h ↦ by rw [countReduce, countReduce, h.length_eq]
  obtain ⟨d, -, hrun, -, -, -, hperm⟩ := mapReduce_eq_mrsequential twoFiles ["a", "b"] countMap
    countReduce (fun _ ↦ .reversed) .stable 2 (by decide) hcount [2, 1] [1, 2] (by decide)
    (by decide) fun _ ↦ none
  refine ⟨d, hrun, ?_⟩
  simpa [List.range_succ] using hperm

end DistLabs.MR
