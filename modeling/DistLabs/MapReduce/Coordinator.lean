import DistLabs.Lib.Machine
import Mathlib.Data.List.Basic

/-!
# The coordinator

`coordinator.go` and `rpc.go` of `mr`: the tasks and their states, and the two RPC handlers, each
of which runs under `c.mu` from end to end.  `now` is the reading of the clock, in nanoseconds,
during a handler.

Tasks are numbered from `1`, and the two slices have an unused place `0`, whose pointer is `nil`;
so are all reduce tasks until the map phase is over.  Following a `nil` pointer, or indexing out of
range, is a panic, and is `none` here.

`World` puts the coordinator among its workers.  All that matters of those is which tasks they were
assigned and which they have reported: any task that was ever assigned may be reported at any later
time, any number of times.
-/

set_option autoImplicit false

namespace DistLabs.MR

/-! ## Tasks -/

/-- `TaskStatus`. -/
inductive TaskStatus
  | todo
  | doing
  | done
deriving DecidableEq, Repr

/-- The two fields that `MapTask` and `ReduceTask` have in common. -/
structure Task where
  /-- Where the task stands. -/
  status : TaskStatus := .todo
  /-- When it was assigned last. -/
  assignedAt : Nat := 0
deriving DecidableEq, Repr

/-- `MapTask`. -/
structure MapTask extends Task where
  /-- The input file. -/
  filename : String
deriving DecidableEq, Repr

/-- `ReduceTask`. -/
structure ReduceTask extends Task
deriving DecidableEq, Repr

/-- The struct `Coordinator`. -/
structure Coordinator where
  /-- `0` for map, `1` for reduce, `2` for done. -/
  phase : Nat
  /-- The map tasks, from place `1` on. -/
  mapTask : List (Option MapTask)
  /-- The reduce tasks, from place `1` on. -/
  reduceTask : List (Option ReduceTask)
  /-- The number of files. -/
  capX : Nat
  /-- The number of reduce tasks. -/
  capY : Nat
deriving DecidableEq, Repr

/-- `TaskType`. -/
inductive TaskType
  | none
  | map
  | reduce
  | exit
deriving DecidableEq, Repr

/-- `TaskAssignment`. -/
structure TaskAssignment where
  /-- What to do. -/
  taskType : TaskType := .none
  /-- The input file of a map task. -/
  filename : String := ""
  /-- The number of a map task. -/
  lowerX : Nat := 0
  /-- The number of a reduce task. -/
  lowerY : Nat := 0
  /-- The number of files. -/
  X : Nat
  /-- The number of reduce tasks. -/
  Y : Nat
deriving DecidableEq, Repr

/-- `TaskCompletion`. -/
structure TaskCompletion where
  /-- The number of a map task. -/
  lowerX : Nat := 0
  /-- The number of a reduce task. -/
  lowerY : Nat := 0
deriving DecidableEq, Repr

/-- One second. -/
def second : Nat := 1000000000

/-- How the loop of `fetchMap` and `fetchReduce` ends. -/
inductive Scan
  /-- At a task nobody has. -/
  | todo (i : Nat)
  /-- At a task somebody has had for too long. -/
  | expired (i : Nat)
  /-- At the end, with this value of `taskLeft`. -/
  | exhausted (taskLeft : Nat)
deriving DecidableEq, Repr

/-- The loop of `fetchMap` and `fetchReduce` over the `k` tasks from `i` on. -/
def scan (tasks : List (Option Task)) (limit now i : Nat) : Nat → Nat → Option Scan
  | 0, taskLeft => some (.exhausted taskLeft)
  | k + 1, taskLeft => do
    let tp ← tasks[i]?.join
    match tp.status with
    | .todo => return .todo i
    | .doing =>
      if now - tp.assignedAt > limit then return .expired i
      else scan tasks limit now (i + 1) k taskLeft
    | .done => scan tasks limit now (i + 1) k (taskLeft - 1)

namespace Coordinator

/-- `MakeCoordinator`, up to the server it starts. -/
def makeCoordinator (fnames : List String) (nReduce : Nat) : Coordinator where
  phase := 0
  mapTask := none :: fnames.map fun fname ↦ some { filename := fname }
  reduceTask := List.replicate (nReduce + 1) none
  capX := fnames.length
  capY := nReduce

/-- `fillReduce`. -/
def fillReduce (c : Coordinator) : Coordinator :=
  { c with reduceTask := c.reduceTask.mapIdx fun y tp ↦ if 1 ≤ y ∧ y ≤ c.capY then some {} else tp }

/-- Write the fields of a map task. -/
def setMap (c : Coordinator) (x : Nat) (f : Task → Task) : Coordinator :=
  { c with mapTask := c.mapTask.modify x (Option.map fun tp ↦ { tp with toTask := f tp.toTask }) }

/-- Write the fields of a reduce task. -/
def setReduce (c : Coordinator) (y : Nat) (f : Task → Task) : Coordinator :=
  { c with
    reduceTask := c.reduceTask.modify y (Option.map fun tp ↦ { tp with toTask := f tp.toTask }) }

/-- `fetchMap`. -/
def fetchMap (c : Coordinator) (now : Nat) : Option (Coordinator × Nat) := do
  match ← scan (c.mapTask.map (Option.map MapTask.toTask)) (15 * second) now 1 c.capX c.capX with
  | .todo x => return (c, x)
  | .expired x => return (c.setMap x fun tp ↦ { tp with status := .todo }, x)
  | .exhausted taskLeft =>
    if taskLeft = 0 then return (fillReduce { c with phase := 1 }, 0) else return (c, 0)

/-- `fetchReduce`. -/
def fetchReduce (c : Coordinator) (now : Nat) : Option (Coordinator × Nat) := do
  match ← scan (c.reduceTask.map (Option.map ReduceTask.toTask)) (10 * second) now 1 c.capY
    c.capY with
  | .todo y => return (c, y)
  | .expired y => return (c.setReduce y fun tp ↦ { tp with status := .todo }, y)
  | .exhausted taskLeft => if taskLeft = 0 then return ({ c with phase := 2 }, 0) else return (c, 0)

/-- What `RequestTask` writes into a task it assigns. -/
def assign (now : Nat) (tp : Task) : Task := { tp with status := .doing, assignedAt := now }

/-- `RequestTask`. -/
def requestTask (c : Coordinator) (now : Nat) : Option (Coordinator × TaskAssignment) := do
  let tap : TaskAssignment := { X := c.capX, Y := c.capY }
  let (c, x) ← if c.phase = 0 then c.fetchMap now else some (c, 0)
  let (c, y) ← if c.phase = 1 then c.fetchReduce now else some (c, 0)
  if c.phase = 2 then return (c, { tap with taskType := .exit })
  else if x > 0 then
    let tp ← c.mapTask[x]?.join
    return (c.setMap x (assign now),
      { tap with taskType := .map, filename := tp.filename, lowerX := x })
  else if y > 0 then
    let _ ← c.reduceTask[y]?.join
    return (c.setReduce y (assign now), { tap with taskType := .reduce, lowerY := y })
  else return (c, tap)

/-- `ResponseTask`.  The second operand of each `&&` is only looked at if the first one is true. -/
def responseTask (c : Coordinator) (tcp : TaskCompletion) : Option Coordinator := do
  let mapOpen ← if tcp.lowerX ≠ 0 then
    c.mapTask[tcp.lowerX]?.join.map fun tp ↦ decide (tp.status ≠ .done) else some false
  if mapOpen then return c.setMap tcp.lowerX fun tp ↦ { tp with status := .done }
  else
    let reduceOpen ← if tcp.lowerY ≠ 0 then
      c.reduceTask[tcp.lowerY]?.join.map fun tp ↦ decide (tp.status ≠ .done) else some false
    if reduceOpen then return c.setReduce tcp.lowerY fun tp ↦ { tp with status := .done }
    else return c

/-- `Done`. -/
def done (c : Coordinator) : Bool := c.phase = 2

end Coordinator

/-! ## The workers -/

/-- A task by its number. -/
inductive Job
  | map (x : Nat)
  | reduce (y : Nat)
deriving DecidableEq, Repr

/-- What a worker sends when it is done with a task. -/
def Job.completion : Job → TaskCompletion
  | .map x => { lowerX := x }
  | .reduce y => { lowerY := y }

/-- The task that is assigned. -/
def TaskAssignment.job (tap : TaskAssignment) : Option Job :=
  match tap.taskType with
  | .map => some (.map tap.lowerX)
  | .reduce => some (.reduce tap.lowerY)
  | .none | .exit => none

/-- The coordinator, the clock, and what workers have been assigned and have reported. -/
structure World where
  /-- The coordinator. -/
  coord : Coordinator
  /-- The clock. -/
  now : Nat
  /-- The tasks that were ever assigned. -/
  assigned : List Job
  /-- The tasks that were ever reported. -/
  reported : List Job
deriving DecidableEq, Repr

/-- What can happen. -/
inductive Action
  /-- A worker calls `RequestTask`. -/
  | request
  /-- A worker reports a task with `ResponseTask`. -/
  | report (job : Job)
  /-- Time passes. -/
  | wait (duration : Nat)
deriving DecidableEq, Repr

namespace World

/-- One action. -/
def step (σ : World) : Action → Option World
  | .request => do
    let (c, tap) ← σ.coord.requestTask σ.now
    return { σ with coord := c, assigned := σ.assigned ++ tap.job.toList }
  | .report job =>
    if job ∈ σ.assigned then do
      let c ← σ.coord.responseTask job.completion
      return { σ with coord := c, reported := σ.reported ++ [job] }
    else none
  | .wait duration => some { σ with now := σ.now + duration }

/-- A job with the files `fnames` and `nReduce` reduce tasks. -/
def machine (fnames : List String) (nReduce : Nat) : Machine World Action where
  init := ⟨.makeCoordinator fnames nReduce, 0, [], []⟩
  step := step

end World

end DistLabs.MR
