import DistLabs.Labgob

/-!
# A Raft server: its fields, its log and what it saves

`types.go`, `constants.go`, `help_log.go` and the `persist` half of `persister.go`.

A server is the struct `Raft` of the source, less the mutex (every function below is one section
that runs with `rf.mu` held), the clock and the endpoints.  Two things are kept deliberately as
the source has them.

* The log is a slice whose element `0` is the boundary: the entry at `snapIndex`, with its term
  and no command.  Everything that touches the log goes through an absolute index minus
  `snapIndex`, and in Go an index out of range is a panic.  So the readers below return an
  `Option`, and `none` is the panic.
* `nextIndex` and `matchIndex` are `nil` until the first `becomeLeader`; reading them before is a
  panic too.  Once made they have one cell for each peer, so the index itself is never the problem.

Terms are `Int`s because the boundary of an empty log has term `-1`.
-/

set_option autoImplicit false

namespace DistLabs

/-- `RaftState` of `constants.go`. -/
inductive RaftState
  | follower
  | candidate
  | leader
deriving DecidableEq, Repr

/-- `Entry`.  The command is a Go `interface{}`, so it may be `nil`: the boundary entry's is. -/
structure Entry (Cmd : Type) where
  /-- The term of the leader that wrote the entry. -/
  term : Int
  /-- What the service asked for. -/
  command : Option Cmd
deriving DecidableEq, Repr

/-- `ApplyMsg`: the two kinds of message the service reads from `applyCh`.  A command message
remembers the term of the entry it was built from, which the Go message does not carry; no code
reads it, and it is here so that "this very entry was delivered" can be said. -/
inductive ApplyMsg (Cmd : Type)
  | command (index : Nat) (cmd : Option Cmd) (term : Int)
  | snapshot (index : Nat) (term : Int) (data : Bytes)
deriving DecidableEq, Repr

/-- `CommandIndex` or `SnapshotIndex`, whichever the message has. -/
def ApplyMsg.index {Cmd : Type} : ApplyMsg Cmd → Nat
  | command i _ _ => i
  | snapshot i _ _ => i

/-- `Persister`. -/
structure Persister where
  /-- What `persist` encoded last. -/
  raftstate : Bytes
  /-- The service's snapshot, saved in the same atomic action. -/
  snapshot : Bytes
deriving DecidableEq, Repr

/-- `MakePersister`. -/
def Persister.empty : Persister := ⟨[], []⟩

/-- The four values `persist` encodes, in its order. -/
structure Saved (n : Nat) (Cmd : Type) where
  /-- The current term. -/
  currentTerm : Int
  /-- The vote in that term. -/
  votedFor : Option (Fin n)
  /-- The log, boundary first. -/
  log : List (Entry Cmd)
  /-- The index of the boundary. -/
  snapIndex : Nat
deriving DecidableEq, Repr

instance {Cmd : Type} [Codec Cmd] : Codec (Entry Cmd) :=
  .ofLeftInverse (fun e ↦ (e.term, e.command)) (fun p ↦ some ⟨p.1, p.2⟩) fun _ ↦ rfl

instance {n : Nat} {Cmd : Type} [Codec Cmd] : Codec (Saved n Cmd) :=
  .ofLeftInverse (fun s ↦ (s.currentTerm, s.votedFor, s.log, s.snapIndex))
    (fun p ↦ some ⟨p.1, p.2.1, p.2.2.1, p.2.2.2⟩) fun _ ↦ rfl

/-- The runs that are replayed in this development have three servers, as a rule. -/
instance threeServers : NeZero 3 := ⟨by decide⟩

/-- The struct `Raft`, one incarnation of one server out of `n`. -/
structure Raft (n : Nat) (Cmd : Type) where
  /-- This server's index among the peers. -/
  me : Fin n
  /-- The latest term the server has seen. -/
  currentTerm : Int
  /-- Follower, candidate or leader. -/
  state : RaftState
  /-- The candidate voted for in `currentTerm`; `none` is Go's `-1`. -/
  votedFor : Option (Fin n)
  /-- The log, boundary first. -/
  log : List (Entry Cmd)
  /-- The highest index known to be committed. -/
  commitIndex : Nat
  /-- The highest index handed to `applyCh`. -/
  lastApplied : Nat
  /-- The next index to send to each peer; `none` is a `nil` slice. -/
  nextIndex : Option (Fin n → Int)
  /-- The index known to be replicated on each peer. -/
  matchIndex : Option (Fin n → Int)
  /-- The last index covered by the snapshot. -/
  snapIndex : Nat
  /-- The snapshot. -/
  snapshot : Bytes
  /-- Whether `wakeCh`, of capacity one, holds a token. -/
  wakeCh : Bool
  /-- The disk. -/
  persister : Persister

namespace Raft

variable {n : Nat} {Cmd : Type}

/-! ## The log -/

/-- `getSnap`: the term of the boundary. -/
def getSnap (rf : Raft n Cmd) : Option Int := rf.log.head?.map Entry.term

/-- `setSnap`. -/
def setSnap (rf : Raft n Cmd) (snapTerm : Int) : Option (Raft n Cmd) :=
  match rf.log with
  | [] => none
  | e :: rest => some { rf with log := { e with term := snapTerm } :: rest }

/-- `get`: the entry at an absolute index. -/
def get (rf : Raft n Cmd) (i : Nat) : Option (Entry Cmd) :=
  if i < rf.snapIndex then none else rf.log[i - rf.snapIndex]?

/-- `entriesFrom`: the slice expression panics unless its bound lies within the log. -/
def entriesFrom (rf : Raft n Cmd) (start : Nat) : Option (List (Entry Cmd)) :=
  if start < rf.snapIndex ∨ rf.log.length < start - rf.snapIndex then none
  else some (rf.log.drop (start - rf.snapIndex))

/-- `logLength`: one more than the last index. -/
def logLength (rf : Raft n Cmd) : Nat := rf.log.length + rf.snapIndex

/-- `bEffortKick`: put a token into `wakeCh` unless there is one. -/
def bEffortKick (rf : Raft n Cmd) : Raft n Cmd := { rf with wakeCh := true }

/-! ## What is saved -/

section Persist

variable [Labgob (Saved n Cmd)]

/-- The values `persist` writes. -/
def saved (rf : Raft n Cmd) : Saved n Cmd := ⟨rf.currentTerm, rf.votedFor, rf.log, rf.snapIndex⟩

/-- `persist`. -/
def persist (rf : Raft n Cmd) : Raft n Cmd :=
  { rf with persister := ⟨Labgob.encode rf.saved, rf.snapshot⟩ }

/-- `readPersist`; failing to decode is a panic. -/
def readPersist (rf : Raft n Cmd) (data : Bytes) : Option (Raft n Cmd) :=
  if data = [] then some rf
  else match (Labgob.decode data : Option (Saved n Cmd)) with
    | none => none
    | some s => some { rf with
        currentTerm := s.currentTerm, votedFor := s.votedFor, log := s.log,
        snapIndex := s.snapIndex, snapshot := rf.persister.snapshot }

/-- The values `Make` sets before it reads the disk. -/
def fresh (me : Fin n) (persister : Persister) : Raft n Cmd where
  me := me
  currentTerm := 0
  state := .follower
  votedFor := none
  log := [⟨-1, none⟩]
  commitIndex := 0
  lastApplied := 0
  nextIndex := none
  matchIndex := none
  snapIndex := 0
  snapshot := []
  wakeCh := false
  persister := persister

/-- `Make`, up to the goroutines it starts. -/
def make (me : Fin n) (persister : Persister) : Option (Raft n Cmd) :=
  (fresh me persister).readPersist persister.raftstate

/-- `append`. -/
def append (rf : Raft n Cmd) (entry : Entry Cmd) : Raft n Cmd :=
  persist (bEffortKick { rf with log := rf.log ++ [entry] })

/-- `batchAppend`. -/
def batchAppend (rf : Raft n Cmd) (entries : List (Entry Cmd)) : Raft n Cmd :=
  persist (bEffortKick { rf with log := rf.log ++ entries })

end Persist

end Raft

end DistLabs
