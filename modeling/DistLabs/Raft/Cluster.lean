import DistLabs.Lib.Machine
import DistLabs.Lib.Quorum
import DistLabs.Raft.Replicate
import Mathlib.Data.Fintype.Basic
import Mathlib.Data.List.FinRange

/-!
# A cluster of Raft servers

The servers, the goroutines each of them runs, and the network between them, as one machine whose
actions are the sections the code executes under `rf.mu`, the deliveries of `labrpc`, and crashes.
Which action happens next is arbitrary: timers, the scheduler and the network are all the choice
of the next action.

* **Calls.**  An RPC is a `Call`.  It carries the request, the reply once the handler has run, and
  whether the calling goroutine still waits for it.  `labrpc` runs a handler at most once and
  hands the caller at most one answer, which may be a failure although the handler ran or will
  still run; a request may be delivered at any later time or never.  Calls are only ever added, so
  the list is also the record of everything that was sent.
* **Goroutines.**  A `collectOpinion` is an `Opinion`: the counter `supporter` and the peers whose
  goroutine has not yet taken the lock for the first time.  A `replicator` serves one peer and is
  busy while its RPC is out.  `guardKick` waits for a token, then for the lock, then sends its
  batch; each snapshot message is sent by a goroutine of its own.
* **The reader of `applyCh`.**  The channel has no buffer, so a message is put on it at the moment
  the service receives it: `received` lists what this incarnation's service got, oldest first.
* **Crashes.**  `restart` is a crash followed by `Make` on what the persister holds; being down
  for a while is not being scheduled.

`hist` records, in order, the events the theorems are about.  No action reads it.
-/

set_option autoImplicit false

namespace DistLabs

/-- An RPC of one of the three methods, with the goroutine that made it and its reply. -/
inductive Rpc (n : Nat) (Cmd : Type)
  | vote (opinion : Nat) (args : RequestVoteArgs n) (reply : Option RequestVoteReply)
  | append (replicator : Nat) (args : AppendEntriesArgs n Cmd) (reply : Option AppendEntriesReply)
  | install (replicator : Nat) (args : InstallSnapshotArgs n) (reply : Option Int)
deriving DecidableEq

/-- One `Call` on an endpoint. -/
structure Call (n : Nat) (Cmd : Type) where
  /-- The server that sent the request. -/
  caller : Fin n
  /-- The server it is addressed to. -/
  callee : Fin n
  /-- The request, and the reply if the handler has run. -/
  rpc : Rpc n Cmd
  /-- Whether the goroutine that called is still waiting. -/
  waiting : Bool
deriving DecidableEq

/-- One run of `collectOpinion`. -/
structure Opinion (n : Nat) where
  /-- The server that runs it. -/
  server : Fin n
  /-- The counter its goroutines share. -/
  supporter : Nat
  /-- The peers whose goroutine has not yet entered its first section. -/
  pending : List (Fin n)
deriving DecidableEq, Repr

/-- One `replicator` goroutine. -/
structure Replicator (n : Nat) where
  /-- The server that runs it. -/
  server : Fin n
  /-- The peer it serves. -/
  peer : Fin n
  /-- Whether it waits for an RPC. -/
  busy : Bool
  /-- Whether the incarnation that started it is still up. -/
  alive : Bool
deriving DecidableEq, Repr

/-- One incarnation of a server, with its goroutines that write `applyCh` and their reader. -/
structure Node (n : Nat) (Cmd : Type) where
  /-- The server. -/
  rf : Raft n Cmd
  /-- `guardKick` has taken a token and not yet the lock. -/
  woken : Bool
  /-- What is left of the batch `guardKick` is sending. -/
  batch : List (ApplyMsg Cmd)
  /-- The messages of the goroutines `InstallSnapshot` started, not yet received. -/
  snapSends : List (ApplyMsg Cmd)
  /-- What the service has received, oldest first. -/
  received : List (ApplyMsg Cmd)
  /-- `snapIndex` when this incarnation started. -/
  startIndex : Nat

/-- What happened, for the record. -/
inductive Event (n : Nat) (Cmd : Type)
  /-- `becomeCandidate` in a term. -/
  | candidate (a : Fin n) (term : Int)
  /-- A vote of `voter` in `term` was counted in the `supporter` of an opinion. -/
  | counted (opinion : Nat) (voter : Fin n) (term : Int)
  /-- `becomeLeader` in a term. -/
  | elected (a : Fin n) (term : Int)
  /-- `updateCommitIndex` moved the commit index; the server as it was right after. -/
  | committed (a : Fin n) (rf : Raft n Cmd)
  /-- `Start` returned `(index, term, true)`. -/
  | started (a : Fin n) (index : Nat) (term : Int) (command : Option Cmd)
  /-- The service received a message from `applyCh`. -/
  | received (a : Fin n) (msg : ApplyMsg Cmd)
  /-- `Snapshot` replaced the snapshot; the server as it was right before. -/
  | cut (a : Fin n) (index : Nat) (data : Bytes) (rf : Raft n Cmd)
  /-- A crash and restart. -/
  | restarted (a : Fin n)

/-- The whole cluster. -/
structure Cluster (n : Nat) (Cmd : Type) where
  /-- The servers. -/
  node : Fin n → Node n Cmd
  /-- Every RPC ever made. -/
  calls : List (Call n Cmd)
  /-- Every run of `collectOpinion`. -/
  opinions : List (Opinion n)
  /-- Every replicator ever started. -/
  replicators : List (Replicator n)
  /-- What happened so far, oldest first. -/
  hist : List (Event n Cmd)

/-- What can happen. -/
inductive Action (n : Nat) (Cmd : Type)
  /-- `ticker` finds its time out passed on a server that does not lead. -/
  | tick (a : Fin n)
  /-- The goroutine of an opinion for a peer takes the lock and sends its request. -/
  | askVote (opinion : Nat) (peer : Fin n)
  /-- A replicator runs the first section of `singleAppend`. -/
  | replicate (replicator : Nat)
  /-- The handler of a call runs. -/
  | deliver (call : Nat)
  /-- The answer of a call reaches its caller. -/
  | answer (call : Nat)
  /-- A call fails at its caller. -/
  | lose (call : Nat)
  /-- The service calls `Start`. -/
  | start (a : Fin n) (command : Option Cmd)
  /-- The service calls `Snapshot`. -/
  | snapshot (a : Fin n) (index : Nat) (data : Bytes)
  /-- `guardKick` takes a token from `wakeCh`. -/
  | wake (a : Fin n)
  /-- `guardKick` runs its locked section. -/
  | collect (a : Fin n)
  /-- The service receives the next message of `guardKick`'s batch. -/
  | send (a : Fin n)
  /-- The service receives the message of one of the snapshot goroutines. -/
  | sendSnap (a : Fin n) (k : Nat)
  /-- A server crashes and restarts. -/
  | restart (a : Fin n)

namespace Cluster

variable {n : Nat} {Cmd : Type}

/-- The other servers. -/
def peers (a : Fin n) : List (Fin n) := (List.finRange n).filter (· ≠ a)

/-- Replace one node. -/
def setNode (σ : Cluster n Cmd) (a : Fin n) (nd : Node n Cmd) : Cluster n Cmd :=
  { σ with node := Function.update σ.node a nd }

/-- Replace the server of one node. -/
def setRf (σ : Cluster n Cmd) (a : Fin n) (rf : Raft n Cmd) : Cluster n Cmd :=
  σ.setNode a { σ.node a with rf := rf }

/-- The replicator `k` is done with its RPC. -/
def idle (reps : List (Replicator n)) (k : Nat) : List (Replicator n) :=
  reps.modify k fun w ↦ { w with busy := false }

/-- `guardKick` takes a token from `wakeCh`. -/
def wake (σ : Cluster n Cmd) (a : Fin n) : Option (Cluster n Cmd) :=
  let nd := σ.node a
  if nd.rf.wakeCh = true ∧ nd.woken = false ∧ nd.batch = [] then
    some (σ.setNode a { nd with rf := { nd.rf with wakeCh := false }, woken := true })
  else none

/-- `guardKick` builds a batch. -/
def collect (σ : Cluster n Cmd) (a : Fin n) : Option (Cluster n Cmd) :=
  let nd := σ.node a
  if nd.woken = true then do
    let (rf, batch) ← nd.rf.guardKick
    return σ.setNode a { nd with rf := rf, woken := false, batch := batch }
  else none

/-- The service receives the next message of the batch. -/
def send (σ : Cluster n Cmd) (a : Fin n) : Option (Cluster n Cmd) :=
  let nd := σ.node a
  match nd.batch with
  | [] => none
  | m :: rest =>
    some { σ.setNode a { nd with batch := rest, received := nd.received ++ [m] } with
      hist := σ.hist ++ [.received a m] }

/-- The service receives the message of the `k`th snapshot goroutine. -/
def sendSnap (σ : Cluster n Cmd) (a : Fin n) (k : Nat) : Option (Cluster n Cmd) := do
  let nd := σ.node a
  let m ← nd.snapSends[k]?
  return { σ.setNode a { nd with
      snapSends := nd.snapSends.eraseIdx k, received := nd.received ++ [m] } with
    hist := σ.hist ++ [.received a m] }

/-- The goroutine of opinion `r` for peer `j` builds and sends its request. -/
def askVote (σ : Cluster n Cmd) (r : Nat) (j : Fin n) : Option (Cluster n Cmd) := do
  let op ← σ.opinions[r]?
  if j ∈ op.pending then
    let args ← (σ.node op.server).rf.requestVoteArgs
    return { σ with
      opinions := σ.opinions.set r { op with pending := op.pending.erase j }
      calls := σ.calls ++ [⟨op.server, j, .vote r args none, true⟩] }
  else none

/-- Replicator `k` runs the first section of `singleAppend`.  On a server that does not lead the
section returns at once and the goroutine goes back to sleep. -/
def replicate (σ : Cluster n Cmd) (k : Nat) : Option (Cluster n Cmd) := do
  let w ← σ.replicators[k]?
  if w.alive = true ∧ w.busy = false then
    match ← (σ.node w.server).rf.singleAppend w.peer with
    | none => return σ
    | some (.append args) => return { σ with
        replicators := σ.replicators.set k { w with busy := true }
        calls := σ.calls ++ [⟨w.server, w.peer, .append k args none, true⟩] }
    | some (.install args) => return { σ with
        replicators := σ.replicators.set k { w with busy := true }
        calls := σ.calls ++ [⟨w.server, w.peer, .install k args none, true⟩] }
  else none

/-- A call fails at its caller; the request may still be delivered. -/
def lose (σ : Cluster n Cmd) (c : Nat) : Option (Cluster n Cmd) := do
  let call ← σ.calls[c]?
  if call.waiting = true then
    let σ' := { σ with calls := σ.calls.set c { call with waiting := false } }
    match call.rpc with
    | .vote _ _ _ => return σ'
    | .append k _ _ => return { σ' with replicators := idle σ.replicators k }
    | .install k _ _ => return { σ' with replicators := idle σ.replicators k }
  else none

variable [Labgob (Saved n Cmd)]

/-- The start of every run: `Make` with an empty persister on each server. -/
def init : Cluster n Cmd where
  node a := ⟨Raft.fresh a .empty, false, [], [], [], 0⟩
  calls := []
  opinions := []
  replicators := []
  hist := []

/-- The locked section of `ticker`, and the `collectOpinion` it starts. -/
def tick (σ : Cluster n Cmd) (a : Fin n) : Option (Cluster n Cmd) :=
  let rf := (σ.node a).rf
  if rf.state = .leader then none
  else some { σ.setRf a rf.becomeCandidate with
    opinions := σ.opinions ++ [⟨a, 1, peers a⟩]
    hist := σ.hist ++ [.candidate a rf.becomeCandidate.currentTerm] }

/-- The handler of call `c` runs on its callee. -/
def deliver (σ : Cluster n Cmd) (c : Nat) : Option (Cluster n Cmd) := do
  let call ← σ.calls[c]?
  let nd := σ.node call.callee
  match call.rpc with
  | .vote r args none =>
    let (rf, reply) ← nd.rf.requestVote args
    return { σ.setRf call.callee rf with
      calls := σ.calls.set c { call with rpc := .vote r args (some reply) } }
  | .append k args none =>
    let (rf, reply) ← nd.rf.appendEntries args
    return { σ.setRf call.callee rf with
      calls := σ.calls.set c { call with rpc := .append k args (some reply) } }
  | .install k args none =>
    let (rf, reply, msg) ← nd.rf.installSnapshot args
    return { σ.setNode call.callee { nd with
        rf := rf, snapSends := nd.snapSends ++ msg.toList } with
      calls := σ.calls.set c { call with rpc := .install k args (some reply) } }
  | _ => none

/-- The answer to a vote request reaches the goroutine that asked. -/
def answerVote (σ : Cluster n Cmd) (c : Nat) (call : Call n Cmd) (r : Nat)
    (args : RequestVoteArgs n) (reply : RequestVoteReply) : Option (Cluster n Cmd) := do
  let op ← σ.opinions[r]?
  let rf := (σ.node call.caller).rf
  let (rf', supporter) := rf.opinionReply args reply op.supporter
  let counted := rf.countsVote args reply
  let elected := rf.countsVote args reply ∧ op.supporter + 1 > n / 2
  return { σ.setRf call.caller rf' with
    calls := σ.calls.set c { call with waiting := false }
    opinions := σ.opinions.set r { op with supporter := supporter }
    replicators := σ.replicators ++
      if elected then (peers call.caller).map fun i ↦ ⟨call.caller, i, false, true⟩ else []
    hist := σ.hist ++ (if counted then [.counted r call.callee args.term] else []) ++
      if elected then [.elected call.caller rf'.currentTerm] else [] }

/-- The answer to an `AppendEntries` reaches its replicator. -/
def answerAppend (σ : Cluster n Cmd) (c : Nat) (call : Call n Cmd) (k : Nat)
    (args : AppendEntriesArgs n Cmd) (reply : AppendEntriesReply) : Option (Cluster n Cmd) := do
  let rf := (σ.node call.caller).rf
  let rf' ← rf.singleAppendReply call.callee args reply
  return { σ.setRf call.caller rf' with
    calls := σ.calls.set c { call with waiting := false }
    replicators := idle σ.replicators k
    hist := σ.hist ++
      if rf.commitIndex < rf'.commitIndex then [.committed call.caller rf'] else [] }

/-- The answer to an `InstallSnapshot` reaches its replicator. -/
def answerInstall (σ : Cluster n Cmd) (c : Nat) (call : Call n Cmd) (k : Nat)
    (args : InstallSnapshotArgs n) (reply : Int) : Option (Cluster n Cmd) := do
  let rf' ← (σ.node call.caller).rf.helpInstallReply call.callee args reply
  return { σ.setRf call.caller rf' with
    calls := σ.calls.set c { call with waiting := false }
    replicators := idle σ.replicators k }

/-- The answer to call `c` reaches its caller. -/
def answer (σ : Cluster n Cmd) (c : Nat) : Option (Cluster n Cmd) := do
  let call ← σ.calls[c]?
  if call.waiting = true then
    match call.rpc with
    | .vote r args (some reply) => σ.answerVote c call r args reply
    | .append k args (some reply) => σ.answerAppend c call k args reply
    | .install k args (some reply) => σ.answerInstall c call k args reply
    | _ => none
  else none

/-- The service calls `Start`. -/
def start (σ : Cluster n Cmd) (a : Fin n) (command : Option Cmd) : Option (Cluster n Cmd) :=
  let (rf, res) := (σ.node a).rf.start command
  some { σ.setRf a rf with
    hist := σ.hist ++ match res with
      | none => []
      | some (index, term) => [.started a index term command] }

/-- The service calls `Snapshot`, with an index it has received. -/
def snapshot (σ : Cluster n Cmd) (a : Fin n) (index : Nat) (data : Bytes) :
    Option (Cluster n Cmd) :=
  let nd := σ.node a
  if ∃ m ∈ nd.received, m.index = index then do
    let rf ← nd.rf.snapshotAt index data
    return { σ.setRf a rf with
      hist := σ.hist ++ if nd.rf.snapIndex < index then [.cut a index data nd.rf] else [] }
  else none

/-- Server `a` crashes, which ends its goroutines, and restarts from its persister. -/
def restart (σ : Cluster n Cmd) (a : Fin n) : Option (Cluster n Cmd) := do
  let rf ← Raft.make a (σ.node a).rf.persister
  return { σ.setNode a ⟨rf, false, [], [], [], rf.snapIndex⟩ with
    calls := σ.calls.map fun call ↦
      if call.caller = a then { call with waiting := false } else call
    opinions := σ.opinions.map fun op ↦ if op.server = a then { op with pending := [] } else op
    replicators := σ.replicators.map fun w ↦
      if w.server = a then { w with alive := false } else w
    hist := σ.hist ++ [.restarted a] }

/-- One action. -/
def step (σ : Cluster n Cmd) : Action n Cmd → Option (Cluster n Cmd)
  | .tick a => σ.tick a
  | .askVote r j => σ.askVote r j
  | .replicate k => σ.replicate k
  | .deliver c => σ.deliver c
  | .answer c => σ.answer c
  | .lose c => σ.lose c
  | .start a command => σ.start a command
  | .snapshot a index data => σ.snapshot a index data
  | .wake a => σ.wake a
  | .collect a => σ.collect a
  | .send a => σ.send a
  | .sendSnap a k => σ.sendSnap a k
  | .restart a => σ.restart a

/-- The cluster as a machine. -/
def machine (n : Nat) (Cmd : Type) [Labgob (Saved n Cmd)] :
    Machine (Cluster n Cmd) (Action n Cmd) :=
  ⟨init, step⟩

end Cluster

end DistLabs
