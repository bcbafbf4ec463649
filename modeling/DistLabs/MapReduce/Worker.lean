import DistLabs.Labgob
import DistLabs.Lib.Grouping

/-!
# Map and reduce tasks

What `worker.go` does with a task: `mapper` cuts what `mapf` makes of a file into one intermediate
file for each reduce task, and `reducer` puts the intermediate files of a reduce task together
again.

A `Disk` is the directory the workers run in, which the files `mr-x-y` and `mr-out-k` are in.  The
input files are read only, and are kept apart from it (`input`).  Of `encoding/json` the code needs
that a `Decoder` gives back, one after the other, the `KeyValue`s that an `Encoder` was given; this
is what a `Codec KeyValue` is.  Reading and writing does not fail otherwise, as opposed to opening
a file that is not there.

A Go map is iterated in an order that is not specified: `RangeOrder` is any such order.

`yOf` divides by the number of reduce tasks, and panics if there are none; so do the loops that call
it.
-/

set_option autoImplicit false

namespace DistLabs.MR

/-- `KeyValue`. -/
structure KeyValue where
  /-- `Key`. -/
  key : String
  /-- `Value`. -/
  value : String
deriving DecidableEq, Repr

/-- `mapf`, of the name of a file and what is in it. -/
abbrev MapFunc := String → Bytes → List KeyValue

/-- `reducef`, of a key and its values. -/
abbrev ReduceFunc := String → List String → String

/-- The bytes of a Go string. -/
def utf8 (s : String) : Bytes := s.toUTF8.data.toList

/-! ## Partition -/

/-- `fnv.New32a`, then `Write` and `Sum32`. -/
def fnv32a (bytes : Bytes) : UInt32 :=
  bytes.foldl (fun h b ↦ (h ^^^ b.toUInt32) * 16777619) 2166136261

/-- `ihash`. -/
def ihash (key : String) : Nat := (fnv32a (utf8 key) &&& 0x7fffffff).toNat

example : fnv32a (utf8 "a") = 0xe40c292c := by decide

/-- `yOf`; `none` is a panic, as the code divides by `Y`. -/
def yOf (key : String) (Y : Nat) : Option Nat := if Y = 0 then none else some (ihash key % Y + 1)

/-! ## Files -/

/-- The files of the directory the workers run in. -/
abbrev Disk := String → Option Bytes

namespace Disk

/-- `os.Create`. -/
def create (d : Disk) (name : String) : Disk := Function.update d name (some [])

/-- Write to a file that is open. -/
def write (d : Disk) (name : String) (bytes : Bytes) : Disk :=
  Function.update d name ((d name).map (· ++ bytes))

/-- `os.Rename`. -/
def rename (d : Disk) (old new : String) : Disk :=
  Function.update (Function.update d new (d old)) old none

end Disk

/-- The name of the intermediate file from map task `x` to reduce task `y`. -/
def intermediateName (x y : Nat) : String := s!"mr-{x}-{y}"

/-- The name of an output file. -/
def outName (k : Nat) : String := s!"mr-out-{k}"

/-- A line of output. -/
def line (key output : String) : Bytes := utf8 s!"{key} {output}\n"

/-- Lines of output, one after the other. -/
def text (lines : List (String × String)) : Bytes := lines.flatMap fun p ↦ line p.1 p.2

variable [Codec KeyValue]

/-- `intermediateFileWriter`. -/
def intermediateFileWriter (d : Disk) (filename : String) (kvs : List KeyValue) : Disk :=
  let d := d.create (filename ++ ".tmp")
  let d := kvs.foldl (fun d kv ↦ d.write (filename ++ ".tmp") (Codec.write kv)) d
  d.rename (filename ++ ".tmp") filename

/-- The loop around `dec.Decode`, up to `io.EOF`.  Every `Decode` takes at least one byte off the
file, so that `fuel` need not exceed the number of bytes. -/
def decodeAll : Nat → Bytes → Option (List KeyValue)
  | _, [] => some []
  | 0, _ :: _ => none
  | fuel + 1, b :: bytes => do
    let (kv, rest) ← Codec.read (b :: bytes)
    let kvs ← decodeAll fuel rest
    return kv :: kvs

/-! ## Tasks -/

/-- The loop of `mapper` that divides what `mapf` has returned; `none` is a panic. -/
def buckets (Y : Nat) (kvs : List KeyValue) : Option (Nat → List KeyValue) :=
  kvs.foldlM (fun (mp : Nat → List KeyValue) kv ↦ do
    let y ← yOf kv.key Y
    return Function.update mp y (mp y ++ [kv])) fun _ ↦ []

/-- `mapper`; `none` is a panic. -/
def mapper (input : String → Bytes) (d : Disk) (filename : String) (x Y : Nat) (mapf : MapFunc) :
    Option Disk := do
  let kvs := mapf filename (input filename)
  let mp ← buckets Y kvs
  return (List.range' 1 Y).foldl
    (fun d y ↦ intermediateFileWriter d (intermediateName x y) (mp y)) d

/-- An order in which a map may be iterated. -/
structure RangeOrder where
  /-- The entries in this order. -/
  order : List (String × List String) → List (String × List String)
  /-- Each entry is there once. -/
  perm : ∀ l, (order l).Perm l

/-- `reducer`; `none` is an error. -/
def reducer (range : RangeOrder) (d : Disk) (y X : Nat) (reducef : ReduceFunc) : Option Disk := do
  let mp ← (List.range' 1 X).foldlM (fun (mp : AList fun _ : String ↦ List String) x ↦ do
    let file ← d (intermediateName x y)
    let kvs ← decodeAll file.length file
    return kvs.foldl (fun mp kv ↦ Grouping.push mp kv.key kv.value) mp) ∅
  let finalFile := outName (y - 1)
  let d := d.create finalFile
  return (range.order (Grouping.pairs mp)).foldl
    (fun d p ↦ d.write finalFile (line p.1 (reducef p.1 p.2))) d

/-- The map tasks `xs`, one after the other; task `x` is about the `x`-th of the files. -/
def mapPhase (input : String → Bytes) (fnames : List String) (Y : Nat) (mapf : MapFunc)
    (xs : List Nat) (d : Disk) : Option Disk :=
  xs.foldlM (fun d x ↦ mapper input d (fnames.getD (x - 1) "") x Y mapf) d

/-- The reduce tasks `ys`, one after the other. -/
def reducePhase (range : Nat → RangeOrder) (X : Nat) (reducef : ReduceFunc) (ys : List Nat)
    (d : Disk) : Option Disk :=
  ys.foldlM (fun d y ↦ reducer (range y) d y X reducef) d

end DistLabs.MR
