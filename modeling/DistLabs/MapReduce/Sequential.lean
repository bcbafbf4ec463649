import DistLabs.MapReduce.Worker
import Mathlib.Data.String.Basic

/-!
# The sequential program

`mrsequential.go` puts all that `mapf` makes of the files into one slice, sorts it by key, and then
looks for runs of equal keys with two nested loops over indices.  These loops cut the slice into
runs (`reduceRuns_eq`).
-/

set_option autoImplicit false

namespace DistLabs.MR

/-- `sort.Sort(ByKey(…))`, which is free to choose an order for equal keys.  Go compares strings by
their bytes; in UTF-8 this is the order of the characters. -/
structure KeySort where
  /-- The sorted slice. -/
  sort : List KeyValue → List KeyValue
  /-- It has the same elements. -/
  perm : ∀ kvs, (sort kvs).Perm kvs
  /-- They are in the order of their keys. -/
  sorted : ∀ kvs, (sort kvs).Pairwise (·.key ≤ ·.key)

/-- What `mapf` makes of all files. -/
def emitted (input : String → Bytes) (fnames : List String) (mapf : MapFunc) : List KeyValue :=
  fnames.flatMap fun filename ↦ mapf filename (input filename)

/-- The inner loop: the first `j` from here on with another key. -/
def runEnd (kvs : List KeyValue) (key : String) (j : Nat) : Nat :=
  if h : j < kvs.length then if kvs[j].key = key then runEnd kvs key (j + 1) else j else j
termination_by kvs.length - j

/-- The inner loop passes a run. -/
theorem runEnd_eq (kvs : List KeyValue) (key : String) (j : Nat) :
    runEnd kvs key j = j + (kvs.drop j).findIdx fun kv ↦ !decide (kv.key = key) := by
  fun_induction runEnd kvs key j with
  | case1 j hj hkey ih =>
    rw [ih, List.drop_eq_getElem_cons hj, List.findIdx_cons]
    simp only [hkey, decide_true, Bool.not_true, cond_false]
    omega
  | case2 j hj hkey =>
    rw [List.drop_eq_getElem_cons hj, List.findIdx_cons]
    simp [hkey]
  | case3 j hj =>
    rw [List.drop_eq_nil_of_le (by omega)]
    rfl

/-- The outer loop: what is written for the keys from `i` on. -/
def reduceRuns (reducef : ReduceFunc) (kvs : List KeyValue) (i : Nat) : List (String × String) :=
  if h : i < kvs.length then
    let key := kvs[i].key
    let j := runEnd kvs key (i + 1)
    let values := ((kvs.take j).drop i).map KeyValue.value
    (key, reducef key values) :: reduceRuns reducef kvs j
  else []
termination_by kvs.length - i
decreasing_by
  rw [runEnd_eq]
  omega

/-- `main`, up to the reading of the arguments: what `mr-out-0` is in the end. -/
def mrsequential (s : KeySort) (input : String → Bytes) (fnames : List String) (mapf : MapFunc)
    (reducef : ReduceFunc) : Bytes :=
  let intermediate := s.sort (emitted input fnames mapf)
  text (reduceRuns reducef intermediate 0)

/-- **The loops cut the slice into runs.** -/
theorem reduceRuns_eq (reducef : ReduceFunc) (kvs : List KeyValue) (i : Nat) :
    reduceRuns reducef kvs i =
      (Grouping.runs KeyValue.key KeyValue.value (kvs.drop i)).map
        fun p ↦ (p.1, reducef p.1 p.2) := by
  fun_induction reduceRuns reducef kvs i with
  | case1 i hi key j values ih =>
    have hj : j = i + 1 + (kvs.drop (i + 1)).findIdx fun kv ↦ !decide (kv.key = key) :=
      runEnd_eq kvs key (i + 1)
    have hvalues : values = (kvs[i] :: (kvs.drop (i + 1)).takeWhile (·.key = key)).map
        KeyValue.value := by
      rw [List.takeWhile_eq_take_findIdx_not, ← List.take_succ_cons, ← List.drop_eq_getElem_cons hi]
      simp only [values, List.drop_take]
      congr 2
      omega
    rw [List.drop_eq_getElem_cons hi, Grouping.runs, List.map_cons, ih, ← hvalues,
      List.dropWhile_eq_drop_findIdx_not, List.drop_drop, ← hj]
  | case2 i hi =>
    rw [List.drop_eq_nil_of_le (by omega), Grouping.runs]
    rfl

end DistLabs.MR
