import DistLabs.Raft.Server

/-!
# Elections

`help_election.go` and `election.go`: the four changes of role, the vote, and the two locked
sections of the goroutine that asks one peer for its vote.

That goroutine reads the term and the log it puts into its request from the server *when it gets
the lock*, not when the election that spawned it began.  `requestVoteArgs` is that read; which
election the answer is then counted for is decided by the caller, who owns the counter
`supporter` — see `DistLabs.Raft.Cluster`.
-/

set_option autoImplicit false

namespace DistLabs

/-- `RequestVoteArgs`. -/
structure RequestVoteArgs (n : Nat) where
  /-- The candidate's term. -/
  term : Int
  /-- Who is asking. -/
  candidateId : Fin n
  /-- The last index of the candidate's log. -/
  lastLogIndex : Nat
  /-- The term of the entry there. -/
  lastLogTerm : Int
deriving DecidableEq, Repr

/-- `RequestVoteReply`. -/
structure RequestVoteReply where
  /-- The voter's term. -/
  term : Int
  /-- Whether the vote was granted. -/
  voteGranted : Bool
deriving DecidableEq, Repr

namespace Raft

variable {n : Nat} {Cmd : Type} [Labgob (Saved n Cmd)]

/-! ## Changes of role -/

/-- `toFollower`. -/
def toFollower (rf : Raft n Cmd) : Raft n Cmd := { rf with state := .follower }

/-- `becomeCandidate`. -/
def becomeCandidate (rf : Raft n Cmd) : Raft n Cmd :=
  persist { rf with
    currentTerm := rf.currentTerm + 1, state := .candidate, votedFor := some rf.me }

/-- `becomeLeader`, up to the replicators it starts. -/
def becomeLeader (rf : Raft n Cmd) : Raft n Cmd :=
  let lastLogIndex : Int := rf.logLength - 1
  { rf with
    state := .leader
    nextIndex := some fun i ↦ if i = rf.me then -1 else lastLogIndex + 1
    matchIndex := some fun i ↦ if i = rf.me then -1 else 0 }

/-- `newGen`: move to a newer term. -/
def newGen (rf : Raft n Cmd) (term : Int) : Raft n Cmd :=
  persist { rf with currentTerm := term, state := .follower, votedFor := none }

/-- The adoption of a newer term that a request or a reply brings. -/
def seeTerm (rf : Raft n Cmd) (term : Int) : Raft n Cmd :=
  if term > rf.currentTerm then rf.newGen term else rf

/-! ## The vote -/

/-- `tryVotingFor`. -/
def tryVotingFor (rf : Raft n Cmd) (candidate : Fin n) (lastLogIndex : Nat) (lastLogTerm : Int) :
    Option (Raft n Cmd × Bool) := do
  let myLastIndex := rf.logLength - 1
  let myLast ← rf.get myLastIndex
  let upToDate := lastLogTerm > myLast.term ∨
    (lastLogTerm = myLast.term ∧ lastLogIndex ≥ myLastIndex)
  if (rf.votedFor = none ∨ rf.votedFor = some candidate) ∧ upToDate then
    return (persist { rf with votedFor := some candidate }, true)
  else
    return (rf, false)

/-- `RequestVote`, the handler. -/
def requestVote (rf : Raft n Cmd) (args : RequestVoteArgs n) :
    Option (Raft n Cmd × RequestVoteReply) := do
  let rf := rf.seeTerm args.term
  if args.term < rf.currentTerm then
    return (rf, ⟨rf.currentTerm, false⟩)
  else
    let (rf, granted) ← rf.tryVotingFor args.candidateId args.lastLogIndex args.lastLogTerm
    return (rf, ⟨rf.currentTerm, granted⟩)

/-! ## Asking one peer -/

/-- The first locked section of the goroutine `collectOpinion` starts for a peer. -/
def requestVoteArgs (rf : Raft n Cmd) : Option (RequestVoteArgs n) := do
  let lastLogIndex := rf.logLength - 1
  let last ← rf.get lastLogIndex
  return ⟨rf.currentTerm, rf.me, lastLogIndex, last.term⟩

/-- Whether the second section counts the vote it got. -/
def countsVote (rf : Raft n Cmd) (args : RequestVoteArgs n) (reply : RequestVoteReply) : Prop :=
  reply.voteGranted = true ∧ (rf.seeTerm reply.term).state = .candidate ∧
    (rf.seeTerm reply.term).currentTerm = args.term

instance (rf : Raft n Cmd) (args : RequestVoteArgs n) (reply : RequestVoteReply) :
    Decidable (rf.countsVote args reply) := inferInstanceAs (Decidable (_ ∧ _ ∧ _))

/-- The second locked section of that goroutine, with the counter it shares with the other
goroutines of its `collectOpinion`. -/
def opinionReply (rf : Raft n Cmd) (args : RequestVoteArgs n) (reply : RequestVoteReply)
    (supporter : Nat) : Raft n Cmd × Nat :=
  if rf.countsVote args reply then
    if supporter + 1 > n / 2 then ((rf.seeTerm reply.term).becomeLeader, supporter + 1)
    else (rf.seeTerm reply.term, supporter + 1)
  else (rf.seeTerm reply.term, supporter)

end Raft

end DistLabs
