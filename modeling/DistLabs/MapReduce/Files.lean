import DistLabs.Lib.Lists
import DistLabs.MapReduce.Worker

/-!
# What a task leaves on the disk

A map task writes its own intermediate files, a reduce task its own output file, and neither
touches anything else.  So it does not matter in which order the tasks of a phase are run, or
whether some are run again: `mapPhase_spec` and `reducePhase_spec` say what is on the disk as soon
as each has been run.

Without reduce tasks a worker panics on the first `KeyValue` of a map task (`mapper_zero`).
-/

set_option autoImplicit false

namespace DistLabs.MR

/-! ## Names -/

theorem toList_intermediateName (x y : Nat) :
    (intermediateName x y).toList =
      'm' :: 'r' :: '-' :: (Nat.toDigits 10 x ++ '-' :: Nat.toDigits 10 y) := by
  change ("mr-" ++ toString x ++ "-" ++ toString y).toList = _
  simp

theorem toList_outName (k : Nat) :
    (outName k).toList = 'm' :: 'r' :: '-' :: 'o' :: 'u' :: 't' :: '-' :: Nat.toDigits 10 k := by
  change ("mr-out-" ++ toString k).toList = _
  simp

theorem not_mem_toDigits {c : Char} (hc : c.isDigit = false) (k : Nat) : c ∉ Nat.toDigits 10 k := by
  intro hmem
  simp [Nat.isDigit_of_mem_toDigits (by decide) (by decide) hmem] at hc

theorem toDigits_inj {j k : Nat} (h : Nat.toDigits 10 j = Nat.toDigits 10 k) : j = k := by
  rw [← Nat.ofDigitChars_ten_toDigits (n := j), h, Nat.ofDigitChars_ten_toDigits]

/-- Different tasks have different files. -/
theorem intermediateName_inj {x y x' y' : Nat} (h : intermediateName x y = intermediateName x' y') :
    x = x' ∧ y = y' := by
  have h := congrArg String.toList h
  rw [toList_intermediateName, toList_intermediateName] at h
  simp only [List.cons.injEq, true_and] at h
  have hdash := not_mem_toDigits (c := '-') (by decide)
  obtain ⟨hx, -, hy⟩ := (List.append_cons_inj_of_notMem (hdash x) (hdash y)).mp h
  exact ⟨toDigits_inj hx, toDigits_inj hy⟩

theorem outName_inj {j k : Nat} (h : outName j = outName k) : j = k := by
  have h := congrArg String.toList h
  rw [toList_outName, toList_outName] at h
  simp only [List.cons.injEq, true_and] at h
  exact toDigits_inj h

/-- A character that is in no name of an intermediate file. -/
theorem not_mem_intermediateName {c : Char} (hc : c.isDigit = false) (hne : c ∉ ['m', 'r', '-'])
    (x y : Nat) : c ∉ (intermediateName x y).toList := by
  simp only [List.mem_cons, List.not_mem_nil, or_false, not_or] at hne
  simp [toList_intermediateName, not_mem_toDigits hc, hne]

theorem intermediateName_ne_tmp (x y : Nat) (name : String) :
    intermediateName x y ≠ name ++ ".tmp" := by
  intro h
  refine not_mem_intermediateName (c := '.') (by decide) (by decide) x y ?_
  simp [h]

theorem intermediateName_ne_outName (x y k : Nat) : intermediateName x y ≠ outName k := by
  intro h
  refine not_mem_intermediateName (c := 'o') (by decide) (by decide) x y ?_
  simp [h, toList_outName]

/-! ## Files -/

namespace Disk

/-- A file that is written piece by piece. -/
theorem foldl_write {α : Type*} (d : Disk) (name : String) (f : α → Bytes) (l : List α) :
    l.foldl (fun d a ↦ d.write name (f a)) (d.create name) =
      Function.update d name (some (l.flatMap f)) := by
  induction l using List.reverseRecOn with
  | nil => rfl
  | append_singleton l a ih =>
    rw [List.foldl_concat, ih, write]
    simp

end Disk

variable [Codec KeyValue]

theorem intermediateFileWriter_eq (d : Disk) (filename : String) (kvs : List KeyValue) :
    intermediateFileWriter d filename kvs =
      Function.update (Function.update d filename (some (kvs.flatMap Codec.write)))
        (filename ++ ".tmp") none := by
  have hne : filename ≠ filename ++ ".tmp" := by
    intro h
    have := congrArg String.length h
    simp at this
  rw [intermediateFileWriter, Disk.foldl_write, Disk.rename, Function.update_self]
  -- the temporary file is written, and then it is gone
  rw [Function.update_comm hne, Function.update_idem, Function.update_comm hne.symm]

/-- Something is written for every `KeyValue`. -/
theorem write_ne_nil (kv : KeyValue) : Codec.write kv ≠ [] := by
  intro hnil
  -- otherwise this one would be read off the encoding of any other one
  have hread : ∀ kv', kv' = kv := by
    intro kv'
    have h := Codec.read_write kv (Codec.write kv')
    have h' := Codec.read_write kv' []
    rw [hnil, List.nil_append] at h
    rw [List.append_nil, h] at h'
    exact (congrArg Prod.fst (Option.some_inj.mp h')).symm
  have h := (hread ⟨"a", ""⟩).trans (hread ⟨"b", ""⟩).symm
  simp at h

/-- **What was encoded is decoded.** -/
theorem decodeAll_flatMap (kvs : List KeyValue) {fuel : Nat} (hfuel : kvs.length ≤ fuel) :
    decodeAll fuel (kvs.flatMap Codec.write) = some kvs := by
  induction kvs generalizing fuel with
  | nil => cases fuel <;> rfl
  | cons kv kvs ih =>
    obtain ⟨fuel, rfl⟩ : ∃ k, fuel = k + 1 := ⟨fuel - 1, by simp at hfuel; omega⟩
    have hread := Codec.read_write kv (kvs.flatMap Codec.write)
    rw [List.flatMap_cons]
    cases hbytes : Codec.write kv ++ kvs.flatMap Codec.write with
    | nil => exact absurd (List.append_eq_nil_iff.mp hbytes).1 (write_ne_nil kv)
    | cons b bytes =>
      rw [decodeAll, ← hbytes, hread]
      simp only [Option.bind_eq_bind, Option.bind_some, ih (Nat.le_of_succ_le_succ hfuel)]
      rfl

theorem length_le_flatMap_write (kvs : List KeyValue) :
    kvs.length ≤ (kvs.flatMap Codec.write).length := by
  induction kvs with
  | nil => simp
  | cons kv kvs ih =>
    have := List.length_pos_iff.mpr (write_ne_nil kv)
    rw [List.flatMap_cons, List.length_append, List.length_cons]
    omega

/-- A whole file is decoded. -/
theorem decodeAll_file (kvs : List KeyValue) :
    decodeAll (kvs.flatMap Codec.write).length (kvs.flatMap Codec.write) = some kvs :=
  decodeAll_flatMap kvs (length_le_flatMap_write kvs)

/-! ## Map tasks -/

section Buckets

omit [Codec KeyValue]

theorem yOf_of_pos {Y : Nat} (hY : 1 ≤ Y) (key : String) :
    yOf key Y = some (ihash key % Y + 1) := if_neg (by omega)

theorem buckets_concat (Y : Nat) (kvs : List KeyValue) (kv : KeyValue) :
    buckets Y (kvs ++ [kv]) = (buckets Y kvs).bind fun mp ↦
      (yOf kv.key Y).map fun y ↦ Function.update mp y (mp y ++ [kv]) := by
  simp [buckets, Option.map_eq_bind]

/-- The loop of `mapper` divides its `KeyValue`s by `yOf`. -/
theorem buckets_spec {Y : Nat} {kvs : List KeyValue} {mp : Nat → List KeyValue}
    (h : buckets Y kvs = some mp) (y : Nat) : mp y = kvs.filter (yOf ·.key Y = some y) := by
  induction kvs using List.reverseRecOn generalizing mp with
  | nil =>
    obtain rfl := Option.some_inj.mp h
    rfl
  | append_singleton kvs kv ih =>
    rw [buckets_concat] at h
    obtain ⟨mp₀, hmp₀, h⟩ := Option.bind_eq_some_iff.mp h
    obtain ⟨y₀, hy₀, rfl⟩ := Option.map_eq_some_iff.mp h
    rw [List.filter_append, ← ih hmp₀]
    by_cases hy : y = y₀
    · subst hy
      simp [hy₀]
    · simp [hy₀, Function.update_of_ne hy, Ne.symm hy]

/-- It gets through if there are reduce tasks. -/
theorem exists_buckets {Y : Nat} (hY : 1 ≤ Y) (kvs : List KeyValue) :
    ∃ mp, buckets Y kvs = some mp := by
  induction kvs using List.reverseRecOn with
  | nil => exact ⟨_, rfl⟩
  | append_singleton kvs kv ih =>
    obtain ⟨mp, hmp⟩ := ih
    rw [buckets_concat, hmp, yOf_of_pos hY]
    exact ⟨_, rfl⟩

/-- Without reduce tasks it panics, unless there is nothing to divide. -/
theorem buckets_zero {kvs : List KeyValue} (h : kvs ≠ []) : buckets 0 kvs = none := by
  cases kvs with
  | nil => exact absurd rfl h
  | cons kv kvs => rfl

end Buckets

section Map

variable (input : String → Bytes) (mapf : MapFunc) (Y : Nat)

/-- The part of a file that is for reduce task `y`. -/
def part (filename : String) (y : Nat) : List KeyValue :=
  (mapf filename (input filename)).filter (yOf ·.key Y = some y)

variable (filename : String) (x : Nat) (d : Disk)

/-- What a map task leaves. -/
def mapped : Disk :=
  (List.range' 1 Y).foldl (fun d y ↦
    intermediateFileWriter d (intermediateName x y) (part input mapf Y filename y)) d

variable {Y} in
theorem mapper_eq (hY : 1 ≤ Y) :
    mapper input d filename x Y mapf = some (mapped input mapf Y filename x d) := by
  obtain ⟨mp, hmp⟩ := exists_buckets hY (mapf filename (input filename))
  have hparts : mp = part input mapf Y filename := funext fun y ↦ buckets_spec hmp y
  simp only [mapper, hmp, Option.bind_eq_bind, Option.bind_some, hparts]
  rfl

/-- Without reduce tasks a worker panics on a file that is not empty. -/
theorem mapper_zero (h : mapf filename (input filename) ≠ []) :
    mapper input d filename x 0 mapf = none := by
  simp [mapper, buckets_zero h]

variable {y : Nat}

/-- A map task leaves its intermediate files. -/
theorem mapped_get (h1 : 1 ≤ y) (h2 : y ≤ Y) :
    mapped input mapf Y filename x d (intermediateName x y) =
      some ((part input mapf Y filename y).flatMap Codec.write) := by
  have hy : y ∈ List.range' 1 Y := List.mem_range'_1.mpr ⟨h1, by omega⟩
  refine List.foldl_post (P := fun d ↦ d (intermediateName x y) = _) (fun d ↦ ?_)
    (fun d j hj hne hd ↦ ?_) hy d
  · rw [intermediateFileWriter_eq, Function.update_of_ne (intermediateName_ne_tmp x y _),
      Function.update_self]
  · have hname : intermediateName x y ≠ intermediateName x j :=
      fun h ↦ hne (intermediateName_inj h).2.symm
    rw [intermediateFileWriter_eq, Function.update_of_ne (intermediateName_ne_tmp x y _),
      Function.update_of_ne hname, hd]

/-- A map task leaves the intermediate files of the others alone. -/
theorem mapped_frame {x' : Nat} (hne : x' ≠ x) :
    mapped input mapf Y filename x d (intermediateName x' y) = d (intermediateName x' y) := by
  rw [mapped]
  generalize List.range' 1 Y = ys
  induction ys using List.reverseRecOn with
  | nil => rfl
  | append_singleton ys j ih =>
    have hname : intermediateName x' y ≠ intermediateName x j :=
      fun h ↦ hne (intermediateName_inj h).1
    rw [List.foldl_concat, intermediateFileWriter_eq,
      Function.update_of_ne (intermediateName_ne_tmp x' y _), Function.update_of_ne hname, ih]

variable {Y x} in
/-- **The intermediate files**, once each map task has been run. -/
theorem mapPhase_spec (hY : 1 ≤ Y) (fnames : List String) (xs : List Nat) :
    ∃ d', mapPhase input fnames Y mapf xs d = some d' ∧ ∀ x ∈ xs, ∀ y, 1 ≤ y → y ≤ Y →
      d' (intermediateName x y) =
        some ((part input mapf Y (fnames.getD (x - 1) "") y).flatMap Codec.write) := by
  have hrun : mapPhase input fnames Y mapf xs d =
      some (xs.foldl (fun d x ↦ mapped input mapf Y (fnames.getD (x - 1) "") x d) d) := by
    simp only [mapPhase, mapper_eq input mapf _ _ _ hY]
    exact List.foldlM_pure
  refine ⟨_, hrun, fun x hx y h1 h2 ↦ ?_⟩
  refine List.foldl_post (P := fun d : Disk ↦ d (intermediateName x y) = _) (fun d ↦ ?_)
    (fun d j hj hne hd ↦ ?_) hx d
  · exact mapped_get input mapf Y _ x d h1 h2
  · rw [mapped_frame input mapf Y _ j d hne.symm, hd]

end Map

/-! ## Reduce tasks -/

section Reduce

variable (range : Nat → RangeOrder) (reducef : ReduceFunc) {X : Nat} {d : Disk}

/-- What a reduce task makes of its `KeyValue`s: the lines it writes. -/
def reduced (y : Nat) (kvs : List KeyValue) : List (String × String) :=
  ((range y).order (Grouping.pairs (Grouping.collect KeyValue.key KeyValue.value kvs))).map
    fun p ↦ (p.1, reducef p.1 p.2)

/-- A reduce task that finds its intermediate files writes its output file. -/
theorem reducer_eq {y : Nat} {kvs : Nat → List KeyValue}
    (hd : ∀ x, 1 ≤ x → x ≤ X → d (intermediateName x y) = some ((kvs x).flatMap Codec.write)) :
    reducer (range y) d y X reducef = some (Function.update d (outName (y - 1))
      (some (text (reduced range reducef y ((List.range' 1 X).flatMap kvs))))) := by
  -- the map, after the files of some of the map tasks
  have hgather : ∀ xs : List Nat, (∀ x ∈ xs, 1 ≤ x ∧ x ≤ X) →
      xs.foldlM (fun (mp : AList fun _ : String ↦ List String) x ↦ do
        let file ← d (intermediateName x y)
        let kvs ← decodeAll file.length file
        return kvs.foldl (fun mp kv ↦ Grouping.push mp kv.key kv.value) mp) ∅ =
      some (Grouping.collect KeyValue.key KeyValue.value (xs.flatMap kvs)) := by
    intro xs hxs
    induction xs using List.reverseRecOn with
    | nil => rfl
    | append_singleton xs x ih =>
      have hx := hxs x (by simp)
      rw [List.foldlM_append, ih fun x hx ↦ hxs x (by simp [hx])]
      simp only [Option.bind_eq_bind, Option.bind_some, List.foldlM_cons, List.foldlM_nil,
        hd x hx.1 hx.2, decodeAll_file, Grouping.collect, List.flatMap_append, List.foldl_append,
        List.flatMap_singleton]
      rfl
  rw [reducer, hgather _ fun x hx ↦ by simp at hx; omega]
  simp only [Option.bind_eq_bind, Option.bind_some]
  rw [Disk.foldl_write _ _ (fun p : String × List String ↦ line p.1 (reducef p.1 p.2)), text,
    reduced, List.flatMap_map]
  rfl

theorem reducePhase_concat (ys : List Nat) (y : Nat) : reducePhase range X reducef (ys ++ [y]) d =
    (reducePhase range X reducef ys d).bind fun d ↦ reducer (range y) d y X reducef := by
  simp [reducePhase]

omit [Codec KeyValue] in
/-- Output files are no intermediate files. -/
theorem foldl_update_outName (out : Nat → Bytes) (ys : List Nat) (x y : Nat) :
    ys.foldl (fun d y ↦ Function.update d (outName (y - 1)) (some (out y))) d
      (intermediateName x y) = d (intermediateName x y) := by
  induction ys using List.reverseRecOn with
  | nil => rfl
  | append_singleton ys j ih =>
    rw [List.foldl_concat, Function.update_of_ne (intermediateName_ne_outName x y _), ih]

/-- **The output files**, once each reduce task has been run. -/
theorem reducePhase_spec {ys : List Nat} {kvs : Nat → Nat → List KeyValue} (hys : ∀ y ∈ ys, 1 ≤ y)
    (hd : ∀ y ∈ ys, ∀ x, 1 ≤ x → x ≤ X →
      d (intermediateName x y) = some ((kvs x y).flatMap Codec.write)) :
    ∃ d', reducePhase range X reducef ys d = some d' ∧ ∀ y ∈ ys, d' (outName (y - 1)) =
      some (text (reduced range reducef y ((List.range' 1 X).flatMap fun x ↦ kvs x y))) := by
  -- no task fails, as none touches an intermediate file
  have hrun : reducePhase range X reducef ys d = some (ys.foldl (fun d y ↦
      Function.update d (outName (y - 1))
        (some (text (reduced range reducef y
          ((List.range' 1 X).flatMap fun x ↦ kvs x y))))) d) := by
    clear hys
    induction ys using List.reverseRecOn with
    | nil => rfl
    | append_singleton ys y ih =>
      rw [reducePhase_concat, ih fun y hy ↦ hd y (by simp [hy]), List.foldl_concat,
        Option.bind_some, reducer_eq range reducef fun x h1 h2 ↦
          (foldl_update_outName _ ys x y).trans (hd y (by simp) x h1 h2)]
  refine ⟨_, hrun, fun y hy ↦ ?_⟩
  refine List.foldl_post (P := fun d : Disk ↦ d (outName (y - 1)) = _) (fun d ↦ ?_)
    (fun d j hj hne hd ↦ ?_) hy d
  · rw [Function.update_self]
  · have hname : outName (y - 1) ≠ outName (j - 1) := fun h ↦ by
      have := outName_inj h
      have := hys y hy
      have := hys j hj
      omega
    rw [Function.update_of_ne hname, hd]

end Reduce

end DistLabs.MR
