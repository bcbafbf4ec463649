import DistLabs.Raft.Election

/-!
# Replication

`help_replicate.go`, `replicate.go` and `install.go`: what a leader sends to a peer, what the peer
does with it, and what the leader makes of the answer.  A replicator's round `singleAppend` has
two locked sections with an RPC between them; in the first it decides between an `AppendEntries`
and, when the peer is behind the leader's log, an `InstallSnapshot`.
-/

set_option autoImplicit false

namespace DistLabs

/-- `AppendEntriesArgs`. -/
structure AppendEntriesArgs (n : Nat) (Cmd : Type) where
  /-- The leader's term. -/
  term : Int
  /-- The leader. -/
  leaderId : Fin n
  /-- The index the entries follow. -/
  prevLogIndex : Nat
  /-- The term of the entry at that index. -/
  prevLogTerm : Int
  /-- The leader's log from there on. -/
  entries : List (Entry Cmd)
  /-- The leader's commit index. -/
  leaderCommit : Nat
deriving DecidableEq, Repr

/-- `AppendEntriesReply`; the three `X` fields are read only where `success` is false, and are
left at Go's zero where the handler does not set them. -/
structure AppendEntriesReply where
  /-- The follower's term. -/
  term : Int
  /-- Whether the follower now holds the entries. -/
  success : Bool
  /-- The term of the conflicting entry, or `-1` where the log is too short. -/
  xTerm : Int := 0
  /-- The first index of that term. -/
  xIndex : Int := 0
  /-- The length of the log, where it is too short. -/
  xLen : Int := 0
deriving DecidableEq, Repr

/-- `InstallSnapshotArgs`. -/
structure InstallSnapshotArgs (n : Nat) where
  /-- The leader's term. -/
  term : Int
  /-- The leader. -/
  leaderId : Fin n
  /-- The last index the snapshot covers. -/
  lastIncludedIndex : Nat
  /-- The term of the entry there. -/
  lastIncludedTerm : Int
  /-- The snapshot. -/
  data : Bytes
deriving DecidableEq, Repr

/-- What the first section of `singleAppend` sends. -/
inductive Outgoing (n : Nat) (Cmd : Type)
  | append (args : AppendEntriesArgs n Cmd)
  | install (args : InstallSnapshotArgs n)

namespace Raft

variable {n : Nat} {Cmd : Type}

/-! ## The leader's commit index -/

/-- The inner loop of `updateCommitIndex`: how many servers hold index `N`. -/
def countMatch (rf : Raft n Cmd) (N : Nat) : Option Nat := do
  let matchIndex ← rf.matchIndex
  return (List.finRange n).countP fun i ↦ i = rf.me ∨ matchIndex i ≥ (N : Int)

/-- The outer loop of `updateCommitIndex`, from `N` downwards. -/
def updateCommitFrom (rf : Raft n Cmd) : Nat → Option (Raft n Cmd)
  | 0 => some rf
  | N + 1 =>
    if N + 1 > rf.commitIndex ∧ N + 1 > rf.snapIndex then do
      let count ← rf.countMatch (N + 1)
      if count > n / 2 then do
        let e ← rf.get (N + 1)
        if e.term = rf.currentTerm then
          return bEffortKick { rf with commitIndex := N + 1 }
        else rf.updateCommitFrom N
      else rf.updateCommitFrom N
    else some rf

/-- `updateCommitIndex`. -/
def updateCommitIndex (rf : Raft n Cmd) : Option (Raft n Cmd) :=
  rf.updateCommitFrom (rf.logLength - 1)

/-! ## Fast backup -/

/-- The loop of `lastIndexOfTerm`, from index `i` downwards. -/
def lastIndexFrom (rf : Raft n Cmd) (term : Int) : Nat → Option Int
  | 0 => some (-1)
  | i + 1 =>
    if i + 1 > rf.snapIndex then do
      let e ← rf.get (i + 1)
      if e.term = term then return ((i + 1 : Nat) : Int) else rf.lastIndexFrom term i
    else some (-1)

/-- `lastIndexOfTerm`. -/
def lastIndexOfTerm (rf : Raft n Cmd) (term : Int) : Option Int :=
  rf.lastIndexFrom term (rf.logLength - 1)

/-- Assign `nextIndex[i]`. -/
def setNext (rf : Raft n Cmd) (i : Fin n) (v : Int) : Option (Raft n Cmd) := do
  let nextIndex ← rf.nextIndex
  return { rf with nextIndex := some (Function.update nextIndex i v) }

/-- Assign `matchIndex[i]`. -/
def setMatch (rf : Raft n Cmd) (i : Fin n) (v : Int) : Option (Raft n Cmd) := do
  let matchIndex ← rf.matchIndex
  return { rf with matchIndex := some (Function.update matchIndex i v) }

/-- `stepBack`. -/
def stepBack (rf : Raft n Cmd) (server : Fin n) (xTerm xIndex xLen : Int) :
    Option (Raft n Cmd) :=
  if xTerm = -1 then rf.setNext server (min xLen rf.logLength)
  else do
    let term ← rf.lastIndexOfTerm xTerm
    if term ≠ -1 then rf.setNext server (term + 1) else rf.setNext server xIndex

/-! ## The follower's log -/

/-- The follower's rule for its commit index, `tryUpdateCommit`. -/
def tryUpdateCommit (rf : Raft n Cmd) (leaderCommit : Nat) : Raft n Cmd :=
  if leaderCommit > rf.commitIndex then
    let rf := { rf with commitIndex := min leaderCommit (rf.logLength - 1) }
    if rf.commitIndex > rf.lastApplied then rf.bEffortKick else rf
  else rf

/-- The loop of `reconcileEntries`, on the entries not yet looked at: it returns the log, cut at
the first entry whose term differs, and the entries still to be appended. -/
def reconcileLoop (rf : Raft n Cmd) (myIdx : Nat) :
    List (Entry Cmd) → Option (Raft n Cmd × List (Entry Cmd))
  | [] => some (rf, [])
  | e :: rest =>
    if myIdx < rf.logLength then do
      let mine ← rf.get myIdx
      if mine.term ≠ e.term then
        return ({ rf with log := rf.log.take (myIdx - rf.snapIndex) }, e :: rest)
      else rf.reconcileLoop (myIdx + 1) rest
    else some (rf, e :: rest)

/-- The backward scan for `XIndex`, from `xIndex` downwards. -/
def firstIndexFrom (rf : Raft n Cmd) (xTerm : Int) : Nat → Option Nat
  | 0 => some 0
  | x + 1 =>
    if x ≥ rf.snapIndex + 1 then do
      let e ← rf.get x
      if e.term = xTerm then rf.firstIndexFrom xTerm x else return x + 1
    else some (x + 1)

variable [Labgob (Saved n Cmd)]

/-- `reconcileEntries`. -/
def reconcileEntries (rf : Raft n Cmd) (myIdx yourIdx : Nat) (entries : List (Entry Cmd)) :
    Option (Raft n Cmd) :=
  if entries.length < yourIdx then none
  else do
    let (rf, rest) ← rf.reconcileLoop myIdx (entries.drop yourIdx)
    return rf.batchAppend rest

/-- The first lines of `AppendEntries`: a newer term is adopted, and a candidate of the same term
steps down. -/
def heedLeader (rf : Raft n Cmd) (term : Int) : Raft n Cmd :=
  if term > rf.currentTerm then rf.newGen term
  else if rf.state = .candidate ∧ term = rf.currentTerm then rf.toFollower
  else rf

/-- `AppendEntries`, the handler. -/
def appendEntries (rf : Raft n Cmd) (args : AppendEntriesArgs n Cmd) :
    Option (Raft n Cmd × AppendEntriesReply) :=
  let rf := rf.heedLeader args.term
  if args.term < rf.currentTerm then
    some (rf, { term := rf.currentTerm, success := false })
  else if args.prevLogIndex ≤ rf.snapIndex then
    let appendStart := rf.snapIndex - args.prevLogIndex
    if appendStart ≥ args.entries.length then
      some (rf.tryUpdateCommit args.leaderCommit, { term := rf.currentTerm, success := true })
    else do
      let rf' ← rf.reconcileEntries (rf.snapIndex + 1) appendStart args.entries
      return (rf'.tryUpdateCommit args.leaderCommit, { term := rf.currentTerm, success := true })
  else if args.prevLogIndex ≥ rf.logLength then
    some (rf, { term := rf.currentTerm, success := false,
                xTerm := -1, xIndex := -1, xLen := rf.logLength })
  else do
    let prev ← rf.get args.prevLogIndex
    if prev.term ≠ args.prevLogTerm then
      let xIndex ← rf.firstIndexFrom prev.term args.prevLogIndex
      return (rf, { term := rf.currentTerm, success := false,
                    xTerm := prev.term, xIndex := xIndex, xLen := -1 })
    else
      let rf' ← rf.reconcileEntries (args.prevLogIndex + 1) 0 args.entries
      return (rf'.tryUpdateCommit args.leaderCommit, { term := rf'.currentTerm, success := true })

/-! ## One round of a replicator -/

/-- The first locked section of `singleAppend`, that of `helpInstall` included; `some none` is the
early return of a server that does not lead. -/
def singleAppend (rf : Raft n Cmd) (i : Fin n) : Option (Option (Outgoing n Cmd)) :=
  if rf.state ≠ .leader then some none
  else do
    let nextIndex ← rf.nextIndex
    let prevLogIndex := nextIndex i - 1
    if prevLogIndex < rf.snapIndex then
      let snapTerm ← rf.getSnap
      return some (.install
        { term := rf.currentTerm, leaderId := rf.me, lastIncludedIndex := rf.snapIndex,
          lastIncludedTerm := snapTerm, data := rf.snapshot })
    else
      let prev ← rf.get prevLogIndex.toNat
      let entries ← rf.entriesFrom (prevLogIndex.toNat + 1)
      return some (.append
        { term := rf.currentTerm, leaderId := rf.me, prevLogIndex := prevLogIndex.toNat,
          prevLogTerm := prev.term, entries := entries, leaderCommit := rf.commitIndex })

/-- The second locked section of `singleAppend`, after an `AppendEntries`. -/
def singleAppendReply (rf : Raft n Cmd) (i : Fin n) (args : AppendEntriesArgs n Cmd)
    (reply : AppendEntriesReply) : Option (Raft n Cmd) :=
  if reply.term > rf.currentTerm then some (rf.newGen reply.term)
  else if rf.currentTerm ≠ args.term ∨ rf.state ≠ .leader then some rf
  else if reply.success = false then rf.stepBack i reply.xTerm reply.xIndex reply.xLen
  else do
    let rf ← rf.setMatch i (args.prevLogIndex + args.entries.length)
    let rf ← rf.setNext i (args.prevLogIndex + args.entries.length + 1)
    rf.updateCommitIndex

/-- The rest of `helpInstall`, after an `InstallSnapshot`.  Neither the term nor the state is
compared with what they were when the request was sent. -/
def helpInstallReply (rf : Raft n Cmd) (i : Fin n) (args : InstallSnapshotArgs n)
    (replyTerm : Int) : Option (Raft n Cmd) :=
  if replyTerm > rf.currentTerm then some (rf.newGen replyTerm)
  else do
    let rf ← rf.setMatch i args.lastIncludedIndex
    rf.setNext i (args.lastIncludedIndex + 1)

/-! ## Snapshots -/

/-- The log `InstallSnapshot` keeps: an empty boundary, and whatever the old log had beyond
`LastIncludedIndex`.  The entry at that index is not looked at. -/
def trimLog (rf : Raft n Cmd) (lastIncludedIndex : Nat) : Option (List (Entry Cmd)) :=
  if lastIncludedIndex < rf.logLength - 1 then do
    let kept ← rf.entriesFrom (lastIncludedIndex + 1)
    return ⟨0, none⟩ :: kept
  else some [⟨0, none⟩]

/-- The part of `InstallSnapshot` that replaces log, boundary and snapshot and saves them. -/
def takeSnapshot (rf : Raft n Cmd) (args : InstallSnapshotArgs n) : Option (Raft n Cmd) := do
  let newLog ← rf.trimLog args.lastIncludedIndex
  let rf ← setSnap { rf with log := newLog, snapIndex := args.lastIncludedIndex }
    args.lastIncludedTerm
  return persist { rf with snapshot := args.data }

/-- `InstallSnapshot`, the handler: the server, the term of the reply, and the message of the
goroutine it starts, if it starts one. -/
def installSnapshot (rf : Raft n Cmd) (args : InstallSnapshotArgs n) :
    Option (Raft n Cmd × Int × Option (ApplyMsg Cmd)) :=
  if args.term < rf.currentTerm then some (rf, rf.currentTerm, none)
  else
    let rf := rf.seeTerm args.term
    if args.lastIncludedIndex ≤ rf.snapIndex then some (rf, rf.currentTerm, none)
    else do
      let rf ← rf.takeSnapshot args
      if rf.lastApplied < rf.snapIndex then
        return ({ rf with lastApplied := rf.snapIndex, commitIndex := rf.snapIndex },
          rf.currentTerm,
          some (.snapshot args.lastIncludedIndex args.lastIncludedTerm args.data))
      else return (rf, rf.currentTerm, none)

/-- `Snapshot`, which the service calls when it has a snapshot up to `index`. -/
def snapshotAt (rf : Raft n Cmd) (index : Nat) (data : Bytes) : Option (Raft n Cmd) :=
  if index ≤ rf.snapIndex then some rf
  else do
    let e ← rf.get index
    return persist { rf with
      log := ⟨e.term, none⟩ :: rf.log.drop (index - rf.snapIndex + 1)
      snapIndex := index
      snapshot := data }

/-! ## The service's side: `log_commit.go` -/

/-- `Start`: the server, and the index and term of the new entry where it leads. -/
def start (rf : Raft n Cmd) (command : Option Cmd) : Raft n Cmd × Option (Nat × Int) :=
  if rf.state ≠ .leader then (rf, none)
  else
    let rf := rf.append ⟨rf.currentTerm, command⟩
    (rf, some (rf.logLength - 1, rf.currentTerm))

end Raft

namespace Raft

variable {n : Nat} {Cmd : Type}

/-- The loop of `guardKick`: the messages for `k` indexes from `i` on, without those the snapshot
covers. -/
def applies (rf : Raft n Cmd) (i : Nat) : Nat → Option (List (ApplyMsg Cmd))
  | 0 => some []
  | k + 1 =>
    if i ≤ rf.snapIndex then rf.applies (i + 1) k
    else do
      let e ← rf.get i
      let rest ← rf.applies (i + 1) k
      return .command i e.command e.term :: rest

/-- The locked section of `guardKick`: the server and the batch to be sent. -/
def guardKick (rf : Raft n Cmd) : Option (Raft n Cmd × List (ApplyMsg Cmd)) :=
  let first := rf.lastApplied + 1
  let last := rf.commitIndex
  if last < first then some (rf, [])
  else do
    let batch ← rf.applies first (last + 1 - first)
    return ({ rf with lastApplied := rf.commitIndex }, batch)

end Raft

end DistLabs
