import DistLabs.Lib.Links
import DistLabs.Porcupine.Bitset

/-!
# The linearizability checker

`checker.go` and `model.go` of `porcupine`, up to `checkSingle`: is there an order of the operations
of a history that the model of an object accepts and that respects real time?

The history is a list of entries, calls and returns, in the order of time.  It is made into a doubly
linked list, and the search walks along it.  The calls before the first return are those that may
come next.  A call the model accepts is taken out of the list together with its return (`lift`) and
the walk starts again at the front; at a return nothing is left to try, and the last call is put
back (`unlift`).  A cache holds the sets of operations and states that were seen before.

Nodes have addresses; the node of the entry at position `i` of the history has address `i`, and the
head of the list the address after them.  A nil dereference, an index out of range and a failed type
assertion make the code panic, which is `none` here.

An `interface{}` is typed: a call carries an input and a return an output, so kind and value are
one.
-/

set_option autoImplicit false

namespace DistLabs.Porcupine

/-! ## Models and histories -/

/-- `Model`: the object, for one client at a time.  (`Partition` is treated apart.) -/
structure Model (S I O : Type) where
  /-- The state at the start. -/
  init : S
  /-- Whether the operation can have this result, and the state after it. -/
  step : S → I → O → Bool × S
  /-- Equality of states. -/
  equal : S → S → Bool

/-- `entryKind`, with the value. -/
inductive EntryKind (I O : Type)
  /-- A call, with its input. -/
  | call (input : I)
  /-- A return, with its output. -/
  | return (output : O)
deriving DecidableEq, Repr

/-- `entry`. -/
structure Entry (I O : Type) where
  /-- Call or return, and the value. -/
  kind : EntryKind I O
  /-- The operation. -/
  id : Nat
  /-- When it happened. -/
  time : Int
  /-- Who called; nothing depends on it. -/
  clientId : Int
deriving DecidableEq, Repr

/-! ## The linked list -/

/-- All `node`s, field by field. -/
structure Heap (I O : Type) extends Links where
  /-- Kind and value; the head of the list has none. -/
  value : Nat → Option (EntryKind I O)
  /-- The return of a call. -/
  matching : Nat → Option Nat
  /-- The operation. -/
  id : Nat → Int

namespace Heap

variable {I O : Type}

/-- No nodes. -/
def empty : Heap I O := ⟨⟨fun _ ↦ none, fun _ ↦ none⟩, fun _ ↦ none, fun _ ↦ none, fun _ ↦ 0⟩

/-- `&node{..}`, at a new address. -/
def alloc (h : Heap I O) (a : Nat) (value : Option (EntryKind I O)) (matching : Option Nat)
    (id : Int) : Heap I O where
  toLinks := (h.setNext a none).setPrev a none
  value := Function.update h.value a value
  matching := Function.update h.matching a matching
  id := Function.update h.id a id

/-- `insertBefore`. -/
def insertBefore (h : Heap I O) (n : Nat) : Option Nat → Heap I O
  | none => h
  | some mark =>
    let beforeMark := h.prev mark
    let links := (h.setPrev mark (some n)).setNext n (some mark)
    match beforeMark with
    | none => { h with toLinks := links }
    | some b => { h with toLinks := (links.setPrev n (some b)).setNext b (some n) }

/-- `length`; there are at most `fuel` nodes. -/
def length (h : Heap I O) : Nat → Option Nat → Nat
  | _, none => 0
  | 0, some _ => 0
  | fuel + 1, some a => h.length fuel (h.next a) + 1

/-- `lift`. -/
def lift (h : Heap I O) (entry : Nat) : Option (Heap I O) := do
  let prev ← h.prev entry
  let links := h.setNext prev (h.next entry)
  let next ← links.next entry
  let links := links.setPrev next (links.prev entry)
  let matching ← h.matching entry
  let prev ← links.prev matching
  let links := links.setNext prev (links.next matching)
  match links.next matching with
  | none => return { h with toLinks := links }
  | some next => return { h with toLinks := links.setPrev next (links.prev matching) }

/-- `unlift`. -/
def unlift (h : Heap I O) (entry : Nat) : Option (Heap I O) := do
  let matching ← h.matching entry
  let prev ← h.prev matching
  let links := h.setNext prev (some matching)
  let links := match links.next matching with
    | none => links
    | some next => links.setPrev next (some matching)
  let prev ← links.prev entry
  let links := links.setNext prev (some entry)
  let next ← links.next entry
  return { h with toLinks := links.setPrev next (some entry) }

end Heap

variable {S I O : Type}

/-- The loop of `makeLinkedEntries`, for the entries from position `i` on: the heap, the first node,
and the return of every operation. -/
def linkFrom : Nat → List (Entry I O) → Heap I O × Option Nat × (Nat → Option Nat)
  | _, [] => (.empty, none, fun _ ↦ none)
  | i, elem :: rest =>
    let (h, root, returns) := linkFrom (i + 1) rest
    match elem.kind with
    | .return _ => ((h.alloc i (some elem.kind) none elem.id).insertBefore i root, some i,
        Function.update returns elem.id (some i))
    | .call _ => ((h.alloc i (some elem.kind) (returns elem.id) elem.id).insertBefore i root,
        some i, returns)

/-- `makeLinkedEntries`. -/
def makeLinkedEntries (history : List (Entry I O)) : Heap I O × Option Nat :=
  let (h, root, _) := linkFrom 0 history
  (h, root)

/-! ## The cache -/

/-- `cacheEntry`. -/
abbrev CacheEntry (S : Type) := Bitset × S

/-- A map from hashes to cache entries. -/
abbrev Cache (S : Type) := BitVec 64 → List (CacheEntry S)

/-- `cacheContains`. -/
def cacheContains (model : Model S I O) (cache : Cache S) (entry : CacheEntry S) : Bool :=
  (cache entry.1.hash).any fun elem ↦ entry.1.equals elem.1 && model.equal entry.2 elem.2

/-- `cache[hash] = append(cache[hash], entry)`. -/
def Cache.add (cache : Cache S) (entry : CacheEntry S) : Cache S :=
  Function.update cache entry.1.hash (cache entry.1.hash ++ [entry])

/-! ## The search -/

/-- For every operation a list of operations. -/
abbrev Longest := List (Option (List Int))

/-- The variables of `checkSingle`. -/
structure Loop (S I O : Type) where
  /-- The nodes. -/
  heap : Heap I O
  /-- Where the walk is. -/
  entry : Option Nat
  /-- The state of the model. -/
  state : S
  /-- The operations that are in the order. -/
  linearized : Bitset
  /-- What was seen before. -/
  cache : Cache S
  /-- The order so far, with the state before each call. -/
  calls : List (Nat × S)
  /-- For every operation, the longest order with it so far. -/
  longest : Longest

namespace Loop

/-- The operations of the order. -/
def seq (L : Loop S I O) : List Int := L.calls.map fun v ↦ L.heap.id v.1

/-- The update of `longest` for one call. -/
def recordOne (seq : List Int) (longest : Longest) (id : Nat) : Option Longest := do
  match ← longest[id]? with
  | none => return longest.set id (some seq)
  | some old => return if seq.length > old.length then longest.set id (some seq) else longest

/-- The update of `longest` for all calls. -/
def record (L : Loop S I O) : Option Longest :=
  L.seq.foldlM (fun longest id ↦ recordOne L.seq longest id.toNat) L.longest

/-- The start of `checkSingle`. -/
def start (model : Model S I O) (history : List (Entry I O)) : Loop S I O :=
  let (h, entry) := makeLinkedEntries history
  let n := h.length history.length entry / 2
  { heap := (h.alloc history.length none none (-1)).insertBefore history.length entry
    entry := entry
    state := model.init
    linearized := newBitset n
    cache := fun _ ↦ []
    calls := []
    longest := List.replicate n none }

/-- What one turn of the loop ends with. -/
inductive Turn (S I O : Type)
  /-- The next turn. -/
  | next (L : Loop S I O)
  /-- The return of `checkSingle`. -/
  | return (ok : Bool) (longest : Longest)

/-- A call that may come next. -/
def tryCall (model : Model S I O) (head : Nat) (L : Loop S I O) (entry matching : Nat) :
    Option (Loop S I O) :=
  match L.heap.value entry, L.heap.value matching with
  | some (.call input), some (.return output) =>
    let (ok, newState) := model.step L.state input output
    if ok then do
      let newLinearized ← L.linearized.set (L.heap.id entry).toNat
      if cacheContains model L.cache (newLinearized, newState) then
        return { L with entry := L.heap.next entry }
      else
        let heap ← L.heap.lift entry
        return { L with
          heap := heap
          entry := heap.next head
          state := newState
          linearized := newLinearized
          cache := L.cache.add (newLinearized, newState)
          calls := L.calls ++ [(entry, L.state)] }
    else return { L with entry := L.heap.next entry }
  | _, _ => none

/-- The last call is put back. -/
def backtrack (computePartial : Bool) (L : Loop S I O) (entry : Nat) (state : S) :
    Option (Loop S I O) := do
  let longest ← (if computePartial then L.record else some L.longest)
  let linearized ← L.linearized.clear (L.heap.id entry).toNat
  let heap ← L.heap.unlift entry
  return { L with
    heap := heap
    entry := heap.next entry
    state := state
    linearized := linearized
    calls := L.calls.dropLast
    longest := longest }

/-- One turn of the loop; `head` is `headEntry`, and `kill` what is loaded. -/
def turn (model : Model S I O) (computePartial kill : Bool) (head : Nat) (L : Loop S I O) :
    Option (Turn S I O) :=
  if L.heap.next head = none then
    some (.return true (L.longest.map fun _ ↦ some L.seq))
  else if kill then some (.return false L.longest)
  else do
    let entry ← L.entry
    match L.heap.matching entry with
    | some matching => return .next (← L.tryCall model head entry matching)
    | none =>
      match L.calls.getLast? with
      | none => return .return false L.longest
      | some (entry, state) => return .next (← L.backtrack computePartial entry state)

/-- The loop, for at most `fuel` turns, while nobody kills it. -/
def run (model : Model S I O) (computePartial : Bool) (head : Nat) :
    Nat → Loop S I O → Option (Bool × Longest)
  | 0, _ => none
  | fuel + 1, L =>
    match L.turn model computePartial false head with
    | none => none
    | some (.return ok longest) => some (ok, longest)
    | some (.next L') => run model computePartial head fuel L'

end Loop

/-- `checkSingle`, for at most `fuel` turns of its loop, while nobody kills it. -/
def checkSingle (model : Model S I O) (history : List (Entry I O)) (computePartial : Bool)
    (fuel : Nat) : Option (Bool × Longest) :=
  (Loop.start model history).run model computePartial history.length fuel

end DistLabs.Porcupine
