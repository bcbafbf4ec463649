import DistLabs.Lib.LedgerFrame
import DistLabs.Raft.Elections

/-!
# The cluster and the ledger protocol

`Rel σ g` relates a cluster to a state of the ledger protocol of `DistLabs.Lib.Ledger`:

* a server's log is the tail of its ledger log behind a boundary that carries the last term of the
  compacted past; its commit index is sealed (`ServerRel`);
* a leader's log is the log of its term, and what it believes of its followers they have
  acknowledged (`LeaderRel`);
* a request in flight says what was true of its sender and stays true (`RequestRel`), a reply is a
  vote or an acknowledgement on the ledger (`ReplyRel`);
* what the record says happened, happened on the ledger (`EventRel`).

The history on the ledger only grows, and all but the servers' own state is stable under that.  So
an action has to account for the one server that acted, for the calls it made or answered and for
the events it put on record; `Rel.advance` does the rest.
-/

set_option autoImplicit false

namespace DistLabs

variable {n : Nat} {Cmd : Type}

instance : Stamped (Entry Cmd) := ⟨Entry.term⟩

/-- The ledger protocol among `n` servers, for the entries of the log. -/
abbrev RaftLedger (n : Nat) (Cmd : Type) := Ledger (Fin n) (Entry Cmd)

open Ledger (endTerm Agree Grows Frame Acts)

/-! ## Servers -/

/-- What a leader knows. -/
structure LeaderRel (g : RaftLedger n Cmd) (v : Fin n) (rf : Raft n Cmd) : Prop where
  /-- It has won its term. -/
  winner : g.winner rf.currentTerm = some v
  /-- Its log is the log of the term. -/
  log : g.leaderLog rf.currentTerm = g.log v
  /-- Whatever was committed in the term, it has committed itself. -/
  commits : ∀ k, (rf.currentTerm, k) ∈ g.commits → k < rf.commitIndex
  /-- What it takes for replicated was acknowledged, or is covered by its snapshot. -/
  matched : ∀ m : Fin n → Int, rf.matchIndex = some m → ∀ i, i ≠ v →
    m i ≤ rf.snapIndex ∨ (i, rf.currentTerm, (m i).toNat) ∈ g.acks

/-- A server and what the ledger says of it. -/
structure ServerRel (g : RaftLedger n Cmd) (v : Fin n) (rf : Raft n Cmd) : Prop where
  /-- The term. -/
  term : g.term v = rf.currentTerm
  /-- The log, behind a boundary with the last term of the compacted past. -/
  log : ∃ b, rf.log = b :: g.tail v ∧ b.term = endTerm (g.past v)
  /-- How much is compacted. -/
  snap : g.snap v = rf.snapIndex
  /-- The commit index covers committed entries. -/
  committed : g.Sealed rf.currentTerm (g.log v) rf.commitIndex
  /-- Nothing is applied that is not committed. -/
  applied : rf.lastApplied ≤ rf.commitIndex
  /-- What it knows if it leads. -/
  leader : rf.state = .leader → LeaderRel g v rf

/-- A message to the service is about a committed index, and a command is the committed one. -/
def MsgRel (g : RaftLedger n Cmd) : ApplyMsg Cmd → Prop
  | .command i c T => ∃ U k, (U, k) ∈ g.commits ∧ 0 < i ∧ i ≤ k + 1 ∧
      (g.leaderLog U)[i - 1]? = some ⟨T, c⟩
  | .snapshot i _ _ => ∃ U k, (U, k) ∈ g.commits ∧ i ≤ k + 1

/-- A node: its server, and the messages to its service. -/
structure NodeRel (g : RaftLedger n Cmd) (v : Fin n) (nd : Node n Cmd) : Prop where
  /-- The server. -/
  server : ServerRel g v nd.rf
  /-- The messages, received or on their way, are about committed indexes up to `lastApplied`. -/
  msgs : ∀ m ∈ nd.received ++ (nd.batch ++ nd.snapSends), MsgRel g m ∧ m.index ≤ nd.rf.lastApplied

/-! ## Calls -/

/-- An `AppendEntries` request carries a piece of the log of its term, with the term before it and
a commit index within it. -/
structure AppendRel (g : RaftLedger n Cmd) (caller callee : Fin n)
    (args : AppendEntriesArgs n Cmd) : Prop where
  /-- It comes from the leader. -/
  winner : g.winner args.term = some caller
  /-- And goes to another server. -/
  other : callee ≠ caller
  /-- The piece lies within the leader's log. -/
  length : args.prevLogIndex + args.entries.length ≤ (g.leaderLog args.term).length
  /-- It is what the leader's log has there. -/
  entries : ∀ j < args.entries.length,
    args.entries[j]? = (g.leaderLog args.term)[args.prevLogIndex + j]?
  /-- The term of the entry before it. -/
  prevTerm : args.prevLogTerm = endTerm ((g.leaderLog args.term).take args.prevLogIndex)
  /-- The leader's commit index. -/
  commit_le : args.leaderCommit ≤ args.prevLogIndex + args.entries.length
  /-- What it covers is committed. -/
  committed : g.Sealed args.term (g.leaderLog args.term) args.leaderCommit

/-- An `InstallSnapshot` request stands for a committed prefix of the log of its term. -/
structure InstallRel (g : RaftLedger n Cmd) (caller callee : Fin n)
    (args : InstallSnapshotArgs n) : Prop where
  /-- It comes from the leader. -/
  winner : g.winner args.term = some caller
  /-- And goes to another server. -/
  other : callee ≠ caller
  /-- The prefix lies within the leader's log. -/
  length : args.lastIncludedIndex ≤ (g.leaderLog args.term).length
  /-- The term of its last entry. -/
  lastTerm : args.lastIncludedTerm =
    endTerm ((g.leaderLog args.term).take args.lastIncludedIndex)
  /-- It is committed. -/
  committed : g.Sealed args.term (g.leaderLog args.term) args.lastIncludedIndex

/-- What a request says is true.  A vote request says how the log of a candidate ends; that holds as
long as the sender is a candidate of a term that nobody has won. -/
def RequestRel (g : RaftLedger n Cmd) (rf : Raft n Cmd) (caller callee : Fin n) :
    Rpc n Cmd → Prop
  | .vote _ args _ => args.term ≤ rf.currentTerm ∧
      (rf.state = .candidate → rf.currentTerm = args.term → g.winner args.term = none →
        args.lastLogTerm = endTerm (g.log caller) ∧ args.lastLogIndex = (g.log caller).length)
  | .append _ args _ => AppendRel g caller callee args
  | .install _ args _ => InstallRel g caller callee args ∧ args.lastIncludedIndex ≤ rf.snapIndex

/-- What a reply says is on the ledger: a vote, unless the election was over, or an
acknowledgement. -/
def ReplyRel (g : RaftLedger n Cmd) (callee : Fin n) : Rpc n Cmd → Prop
  | .vote _ args (some reply) => reply.voteGranted = true → g.winner args.term = none →
      ⟨callee, args.candidateId, args.term, args.lastLogTerm, args.lastLogIndex⟩ ∈ g.votes
  | .append _ args (some reply) => reply.success = true →
      (callee, args.term, args.prevLogIndex + args.entries.length) ∈ g.acks
  | _ => True

/-! ## Events -/

/-- What is on record happened on the ledger. -/
def EventRel (g : RaftLedger n Cmd) : Event n Cmd → Prop
  | .elected a T => g.winner T = some a
  | .committed _ rf => 0 < rf.commitIndex ∧ (rf.currentTerm, rf.commitIndex - 1) ∈ g.commits ∧
      ∀ i, rf.snapIndex < i → i ≤ rf.commitIndex →
        ∃ e, rf.get i = some e ∧ (g.leaderLog rf.currentTerm)[i - 1]? = some e
  | .started _ i T c => 0 < i ∧ (g.leaderLog T)[i - 1]? = some ⟨T, c⟩
  | .received _ m => MsgRel g m
  | .cut _ s _ rf => ∃ U k, (U, k) ∈ g.commits ∧ s ≤ k + 1 ∧
      ∀ i, rf.snapIndex < i → i ≤ s →
        ∃ e, rf.get i = some e ∧ (g.leaderLog U)[i - 1]? = some e
  | _ => True

/-- An entry that `Start` appended at an index that had been delivered before is not the committed
one: another entry is. -/
def RealTime (g : RaftLedger n Cmd) (hist : List (Event n Cmd)) : Prop :=
  ∀ before after a i T c, hist = before ++ .started a i T c :: after →
    ∀ b m, .received b m ∈ before → i ≤ m.index →
      ∃ U k e, (U, k) ∈ g.commits ∧ i ≤ k + 1 ∧ (g.leaderLog U)[i - 1]? = some e ∧ e.term ≠ T

/-- Some leader of term `T` is on record as having moved its commit index to `k + 1`. -/
def Recorded (hist : List (Event n Cmd)) (T : Int) (k : Nat) : Prop :=
  ∃ a rf, .committed a rf ∈ hist ∧ rf.currentTerm = T ∧ rf.commitIndex = k + 1

/-- **The relation between a cluster and the ledger.** -/
structure Rel (σ : Cluster n Cmd) (g : RaftLedger n Cmd) : Prop where
  /-- The ledger is in a good state. -/
  inv : g.Inv
  /-- Acknowledgements are kept. -/
  kept : g.Kept
  /-- The servers. -/
  node : ∀ v, NodeRel g v (σ.node v)
  /-- The requests. -/
  request : ∀ call ∈ σ.calls,
    RequestRel g (σ.node call.caller).rf call.caller call.callee call.rpc
  /-- The replies. -/
  reply : ∀ call ∈ σ.calls, ReplyRel g call.callee call.rpc
  /-- A replicator serves another server. -/
  replicator : ∀ w ∈ σ.replicators, w.peer ≠ w.server
  /-- The record. -/
  event : ∀ e ∈ σ.hist, EventRel g e
  /-- Elections on the ledger are on record. -/
  elected : ∀ a T, g.winner T = some a → .elected a T ∈ σ.hist
  /-- Commits on the ledger are on record. -/
  recorded : ∀ T k, (T, k) ∈ g.commits → Recorded σ.hist T k
  /-- Late entries at old indexes are not committed. -/
  realTime : RealTime g σ.hist

/-! ## Stability -/

section Stability

variable {g g' : RaftLedger n Cmd}

theorem MsgRel.mono (hG : Grows g g') {m : ApplyMsg Cmd} (h : MsgRel g m) : MsgRel g' m := by
  cases m with
  | command i c T =>
    obtain ⟨U, k, hc, h0, hk, he⟩ := h
    exact ⟨U, k, hG.commits hc, h0, hk, hG.getElem? he⟩
  | snapshot i T data =>
    obtain ⟨U, k, hc, hk⟩ := h
    exact ⟨U, k, hG.commits hc, hk⟩

theorem EventRel.mono (hG : Grows g g') {e : Event n Cmd} (h : EventRel g e) : EventRel g' e := by
  cases e with
  | elected a T => exact hG.winner T a h
  | committed a rf =>
    obtain ⟨h0, hc, hlog⟩ := h
    refine ⟨h0, hG.commits hc, fun i h1 h2 ↦ ?_⟩
    obtain ⟨e, he, hl⟩ := hlog i h1 h2
    exact ⟨e, he, hG.getElem? hl⟩
  | started a i T c => exact ⟨h.1, hG.getElem? h.2⟩
  | received a m => exact MsgRel.mono hG h
  | cut a s data rf =>
    obtain ⟨U, k, hc, hs, hlog⟩ := h
    refine ⟨U, k, hG.commits hc, hs, fun i h1 h2 ↦ ?_⟩
    obtain ⟨e, he, hl⟩ := hlog i h1 h2
    exact ⟨e, he, hG.getElem? hl⟩
  | candidate | counted | restarted => trivial

theorem winner_none (hG : Grows g g') {T : Int} (h : g'.winner T = none) : g.winner T = none := by
  by_contra hne
  exact hG.winner_ne hne h

/-- A prefix of the log of a term that has been won stays what it is. -/
theorem take_leaderLog (hG : Grows g g') {T : Int} {k : Nat} (hk : k ≤ (g.leaderLog T).length) :
    (g'.leaderLog T).take k = (g.leaderLog T).take k :=
  (hG.agree hk 0).take_eq.symm

theorem sealed_leaderLog (hG : Grows g g') (hi : g.Inv) {T : Int} {c : Nat}
    (hs : g.Sealed T (g.leaderLog T) c) : g'.Sealed T (g'.leaderLog T) c :=
  (hG.sealed_mono hi le_rfl hs).of_agree (hG.agree (hi.length_of_sealed hs) 0).symm

theorem AppendRel.mono (hG : Grows g g') (hi : g.Inv) {caller callee : Fin n}
    {args : AppendEntriesArgs n Cmd} (h : AppendRel g caller callee args) :
    AppendRel g' caller callee args where
  winner := hG.winner _ _ h.winner
  other := h.other
  length := h.length.trans (hG.length_le _)
  entries j hj := by
    have hlen := h.length
    rw [h.entries j hj]
    exact hG.agree hlen 0 _ (Nat.zero_le _) (by omega)
  prevTerm := by
    have hlen := h.length
    rw [take_leaderLog hG (by omega), h.prevTerm]
  commit_le := h.commit_le
  committed := sealed_leaderLog hG hi h.committed

/-- The term a request names for `prevLogIndex` is that of the leader's entry there. -/
theorem AppendRel.prevLogTerm_eq {caller callee : Fin n} {args : AppendEntriesArgs n Cmd}
    (h : AppendRel g caller callee args) (hpos : 0 < args.prevLogIndex) {e : Entry Cmd}
    (he : (g.leaderLog args.term)[args.prevLogIndex - 1]? = some e) :
    args.prevLogTerm = e.term := by
  have hlen := (List.getElem?_eq_some_iff.mp he).1
  rw [h.prevTerm]
  exact Ledger.endTerm_of_getElem? (k := args.prevLogIndex - 1)
    (by rw [List.getElem?_take_of_lt (by omega), he]) (by rw [List.length_take]; omega)

theorem InstallRel.mono (hG : Grows g g') (hi : g.Inv) {caller callee : Fin n}
    {args : InstallSnapshotArgs n} (h : InstallRel g caller callee args) :
    InstallRel g' caller callee args where
  winner := hG.winner _ _ h.winner
  other := h.other
  length := h.length.trans (hG.length_le _)
  lastTerm := by rw [take_leaderLog hG h.length, h.lastTerm]
  committed := sealed_leaderLog hG hi h.committed

theorem ReplyRel.mono (hG : Grows g g') {callee : Fin n} {rpc : Rpc n Cmd}
    (h : ReplyRel g callee rpc) : ReplyRel g' callee rpc := by
  match rpc with
  | .vote _ _ (some _) => exact fun hg hw ↦ hG.votes (h hg (winner_none hG hw))
  | .append _ _ (some _) => exact fun hs ↦ hG.acks (h hs)
  | .vote _ _ none | .append _ _ none | .install _ _ _ => trivial

theorem RealTime.mono (hG : Grows g g') {hist : List (Event n Cmd)} (h : RealTime g hist) :
    RealTime g' hist := by
  intro before after a i T c heq b m hm hle
  obtain ⟨U, k, e, hc, hk, he, hne⟩ := h before after a i T c heq b m hm hle
  exact ⟨U, k, e, hG.commits hc, hk, hG.getElem? he, hne⟩

/-- A request stays true while its sender evolves, if the log of a candidate does not change under
it. -/
theorem RequestRel.mono (hG : Grows g g') (hi : g.Inv) {rf rf' : Raft n Cmd} {caller callee : Fin n}
    (hterm : rf.currentTerm ≤ rf'.currentTerm) (hsnap : rf.snapIndex ≤ rf'.snapIndex)
    (hcand : rf'.state = .candidate → rf'.currentTerm = rf.currentTerm →
      g'.winner rf'.currentTerm = none → rf.state = .candidate ∧ g'.log caller = g.log caller)
    {rpc : Rpc n Cmd} (h : RequestRel g rf caller callee rpc) :
    RequestRel g' rf' caller callee rpc := by
  cases rpc with
  | vote r args reply =>
    refine ⟨h.1.trans hterm, fun hs ht hw ↦ ?_⟩
    have hle := h.1
    have heq : rf'.currentTerm = rf.currentTerm := by omega
    obtain ⟨hs', hlog⟩ := hcand hs heq (ht ▸ hw)
    rw [hlog]
    exact h.2 hs' (heq ▸ ht) (winner_none hG hw)
  | append k args reply => exact AppendRel.mono hG hi h
  | install k args reply => exact ⟨h.1.mono hG hi, h.2.trans hsnap⟩

variable {a v : Fin n} {rf : Raft n Cmd}

theorem LeaderRel.frame (hG : Grows g g') (hF : Frame g g' a) (hv : v ≠ a)
    (h : LeaderRel g v rf) : LeaderRel g' v rf := by
  obtain ⟨hlog, hcommits⟩ := hF.lead _ v h.winner hv
  refine ⟨hG.winner _ _ h.winner, ?_, fun k hk ↦ h.commits k (hcommits k hk), fun m hm i hi ↦ ?_⟩
  · rw [hlog, h.log, hF.log hv]
  · exact (h.matched m hm i hi).imp id fun hack ↦ hG.acks hack

theorem ServerRel.frame (hG : Grows g g') (hF : Frame g g' a) (hi : g.Inv) (hv : v ≠ a)
    (h : ServerRel g v rf) : ServerRel g' v rf := by
  obtain ⟨hterm, hpast, htail⟩ := hF.other v hv
  refine ⟨hterm.trans h.term, ?_, ?_, ?_, h.applied, fun hs ↦ (h.leader hs).frame hG hF hv⟩
  · rw [hpast, htail]
    exact h.log
  · rw [Ledger.snap, hpast]
    exact h.snap
  · rw [hF.log hv]
    exact hG.sealed_mono hi le_rfl h.committed

theorem NodeRel.frame (hG : Grows g g') (hF : Frame g g' a) (hi : g.Inv) (hv : v ≠ a)
    {nd : Node n Cmd} (h : NodeRel g v nd) : NodeRel g' v nd :=
  ⟨h.server.frame hG hF hi hv, fun m hm ↦ ⟨(h.msgs m hm).1.mono hG, (h.msgs m hm).2⟩⟩

end Stability

/-! ## One action -/

theorem RealTime.append {g : RaftLedger n Cmd} {hist evs : List (Event n Cmd)}
    (h : RealTime g hist)
    (hone : ∀ a i T c, .started a i T c ∈ evs → evs = [.started a i T c])
    (hnew : ∀ a i T c, .started a i T c ∈ evs → ∀ b m, .received b m ∈ hist → i ≤ m.index →
      ∃ U k e, (U, k) ∈ g.commits ∧ i ≤ k + 1 ∧ (g.leaderLog U)[i - 1]? = some e ∧ e.term ≠ T) :
    RealTime g (hist ++ evs) := by
  intro before after a i T c heq
  rcases List.append_eq_append_iff.mp heq with ⟨more, rfl, hevs⟩ | ⟨rest, rfl, hrest⟩
  · -- the `Start` is new, so it is all that is new
    have hmem : .started a i T c ∈ evs := by simp [hevs]
    have hsingle := hone a i T c hmem
    obtain rfl : more = [] := by
      rw [hsingle] at hevs
      cases more with
      | nil => rfl
      | cons x xs => simp at hevs
    simpa using hnew a i T c hmem
  · cases rest with
    | nil =>
      rw [List.nil_append] at hrest
      have hmem : .started a i T c ∈ evs := by simp [← hrest]
      simpa using hnew a i T c hmem
    | cons x rest =>
      rw [List.cons_append, List.cons.injEq] at hrest
      obtain ⟨rfl, -⟩ := hrest
      exact h before rest a i T c rfl

namespace Rel

variable [Labgob (Saved n Cmd)] {σ σ' : Cluster n Cmd} {act : Action n Cmd}
  {P : Prop} {g g' : RaftLedger n Cmd} {a : Fin n}

theorem replicator_step (h : Rel σ g) (ht : Cluster.Trans σ act σ') :
    ∀ w ∈ σ'.replicators, w.peer ≠ w.server := by
  have hset : ∀ {k : Nat} {w₀ : Replicator n}, σ.replicators[k]? = some w₀ →
      ∀ w ∈ σ.replicators.set k { w₀ with busy := true }, w.peer ≠ w.server := by
    intro k w₀ hw₀ w hw
    rcases List.mem_or_eq_of_mem_set hw with hold | rfl
    · exact h.replicator w hold
    · exact h.replicator w₀ (List.mem_of_getElem? hw₀)
  have hidle : ∀ k, ∀ w ∈ Cluster.idle σ.replicators k, w.peer ≠ w.server := by
    intro k w hw
    obtain ⟨i, hi⟩ := List.mem_iff_getElem?.mp hw
    rw [Cluster.idle, List.getElem?_modify, Option.map_eq_map, Option.map_eq_some_iff] at hi
    obtain ⟨w₀, hw₀, rfl⟩ := hi
    have := h.replicator w₀ (List.mem_of_getElem? hw₀)
    split <;> exact this
  cases ht with
  | replicateAppend hw => exact hset hw
  | replicateInstall hw => exact hset hw
  | @elect c r call =>
    intro w hw
    rcases List.mem_append.mp hw with hold | hnew
    · exact h.replicator w hold
    · obtain ⟨i, hi, rfl⟩ := List.mem_map.mp hnew
      simpa [Cluster.peers] using hi
  | answerAppend => exact hidle _
  | answerInstall => exact hidle _
  | lose _ _ hreps =>
    rcases hreps with rfl | ⟨k, rfl⟩
    · exact h.replicator
    · exact hidle k
  | restart =>
    intro w hw
    obtain ⟨w₀, hw₀, rfl⟩ := List.mem_map.mp hw
    have := h.replicator w₀ hw₀
    split <;> exact this
  | _ => exact h.replicator

/-- A request that was already there, whoever sent it. -/
theorem request_kept (h : Rel σ g) (ht : Cluster.Trans σ act σ') (hσ : σ.AtRest)
    (hA : Acts P g g' a)
    (hcand : (σ'.node a).rf.state = .candidate →
      (σ'.node a).rf.currentTerm = (σ.node a).rf.currentTerm →
      g'.winner (σ'.node a).rf.currentTerm = none → g'.log a = g.log a)
    {caller callee : Fin n} {rpc : Rpc n Cmd}
    (hr : RequestRel g (σ.node caller).rf caller callee rpc) :
    RequestRel g' (σ'.node caller).rf caller callee rpc := by
  have he := ht.evolves hσ caller
  refine hr.mono hA.grows h.inv he.term he.snap fun hs hterm hw ↦ ⟨?_, ?_⟩
  · rcases ht.role hσ caller with hk | ⟨hrf, -⟩ | ⟨hs', -⟩
    · rcases hk with hf | ⟨hs', -⟩
      · rw [hf] at hs
        simp at hs
      · rw [← hs', hs]
    · have : (σ'.node caller).rf.currentTerm = (σ.node caller).rf.currentTerm + 1 := by
        rw [hrf]
        rfl
      omega
    · exact hs'
  · by_cases hc : caller = a
    · subst hc
      exact hcand hs hterm hw
    · exact hA.frame.log hc

/-- **What one action has to account for**: the node `a` that acts, on the ledger and in the
cluster; the call that is made or answered; the events `evs` it puts on record. -/
theorem advance {nd : Node n Cmd} (h : Rel σ g) (evs : List (Event n Cmd))
    (ht : Cluster.Trans σ act σ') (hσ : σ.AtRest) (hA : Acts P g g' a)
    (hn : σ'.node = (σ.setNode a nd).node) (hnode : NodeRel g' a nd)
    (hcand : nd.rf.state = .candidate → nd.rf.currentTerm = (σ.node a).rf.currentTerm →
      g'.winner nd.rf.currentTerm = none → g'.log a = g.log a)
    (hreq : ∀ call, σ'.calls[σ.calls.length]? = some call →
      RequestRel g' (σ'.node call.caller).rf call.caller call.callee call.rpc)
    (hrep : ∀ c, act = .deliver c → ∀ call call', σ.calls[c]? = some call →
      σ'.calls[c]? = some call' → ReplyRel g' call.callee call'.rpc)
    (hel : ∀ b T, g'.winner T = some b → g.winner T = none → .elected b T ∈ σ'.hist)
    (hcom : ∀ T k, (T, k) ∈ g'.commits → (T, k) ∈ g.commits ∨ Recorded σ'.hist T k)
    (hevs : σ'.hist = σ.hist ++ evs) (hev : ∀ e ∈ evs, EventRel g' e)
    (hreal : ∀ b i T c, .started b i T c ∈ evs → ∀ d m, .received d m ∈ σ.hist → i ≤ m.index →
      ∃ U k e, (U, k) ∈ g'.commits ∧ i ≤ k + 1 ∧ (g'.leaderLog U)[i - 1]? = some e ∧ e.term ≠ T) :
    Rel σ' g' := by
  have hself : σ'.node a = nd := by rw [hn, Cluster.setNode_self]
  have hold {caller callee : Fin n} {rpc : Rpc n Cmd} :
      RequestRel g (σ.node caller).rf caller callee rpc →
        RequestRel g' (σ'.node caller).rf caller callee rpc :=
    h.request_kept ht hσ hA (hself ▸ hcand)
  constructor
  case inv =>
    exact hA.inv
  case kept =>
    exact hA.kept h.kept
  case node =>
    intro v
    by_cases hv : v = a
    · rw [hv, hself]
      exact hnode
    · rw [hn, Cluster.setNode_of_ne σ nd hv]
      exact (h.node v).frame hA.grows hA.frame h.inv hv
  case request =>
    intro call' hmem
    obtain ⟨c, hc'⟩ := List.mem_iff_getElem?.mp hmem
    rcases ht.call_cases hc' with ⟨call, hc, hk⟩ | ⟨rfl, -⟩ | ⟨call, -, hc, hr, h1, h2, -⟩
    · rw [hk.caller, hk.callee, hk.rpc]
      exact hold (h.request call (List.mem_of_getElem? hc))
    · exact hreq call' hc'
    · have hreq₀ := h.request call (List.mem_of_getElem? hc)
      rw [h1, h2]
      refine hold ?_
      generalize call'.rpc = rpc at hr
      cases hr with
      | vote hr₀ | append hr₀ | install hr₀ => rw [hr₀] at hreq₀; exact hreq₀
  case reply =>
    intro call' hmem
    obtain ⟨c, hc'⟩ := List.mem_iff_getElem?.mp hmem
    rcases ht.call_cases hc' with ⟨call, hc, hk⟩ | ⟨-, hr, -⟩ | ⟨call, hact, hc, -, -, h2, -⟩
    · rw [hk.callee, hk.rpc]
      exact (h.reply call (List.mem_of_getElem? hc)).mono hA.grows
    · cases hr <;> trivial
    · rw [h2]
      exact hrep c hact call call' hc hc'
  case replicator =>
    exact h.replicator_step ht
  case event =>
    intro e he
    rw [hevs] at he
    rcases List.mem_append.mp he with hold | hnew
    · exact (h.event e hold).mono hA.grows
    · exact hev e hnew
  case elected =>
    intro b T hw
    cases hwin : g.winner T with
    | none => exact hel b T hw hwin
    | some b' =>
      have := hA.grows.winner T b' hwin
      rw [hw, Option.some_inj] at this
      exact ht.hist_subset (h.elected b T (this ▸ hwin))
  case recorded =>
    intro T k hk
    rcases hcom T k hk with hold | hnew
    · obtain ⟨b, rf, hb, hT⟩ := h.recorded T k hold
      exact ⟨b, rf, ht.hist_subset hb, hT⟩
    · exact hnew
  case realTime =>
    obtain ⟨evs', hevs', -, hone⟩ := ht.hist_cases
    obtain rfl : evs' = evs := List.append_cancel_left (hevs'.symm.trans hevs)
    rw [hevs]
    exact (h.realTime.mono hA.grows).append hone hreal

/-! Three shapes of actions: a goroutine sends a request, a handler answers one, and a server does
something on its own or with an answer it got. -/

/-- A request is sent, or nothing but the bookkeeping of the calls changes. -/
theorem ask (h : Rel σ g) (ht : Cluster.Trans σ act σ') (hσ : σ.AtRest)
    (hact : ∀ c, act ≠ .deliver c) (hn : σ'.node = σ.node) (hhist : σ'.hist = σ.hist)
    (hreq : ∀ call, σ'.calls[σ.calls.length]? = some call →
      RequestRel g (σ.node call.caller).rf call.caller call.callee call.rpc) (a : Fin n) :
    Rel σ' g := by
  refine h.advance (P := True) (a := a) [] ht hσ (Acts.refl h.inv a) ?_
    (h.node a) (fun _ _ _ ↦ rfl) ?_ (fun c hc ↦ absurd hc (hact c)) ?_ (fun _ _ ↦ Or.inl) ?_
    (by simp) (by simp)
  · rw [hn, Cluster.setNode, Function.update_eq_self]
  · rw [hn]
    exact hreq
  · intro b T hw hw'
    rw [hw] at hw'
    simp at hw'
  · rw [hhist, List.append_nil]

/-- A handler runs. -/
theorem handle {c : Nat} {call : Call n Cmd} {rpc : Rpc n Cmd} {nd : Node n Cmd} (h : Rel σ g)
    (ht : Cluster.Trans σ (.deliver c) σ') (hσ : σ.AtRest) (hA : Acts P g g' call.callee)
    (hw : g'.winner = g.winner) (hcom : g'.commits = g.commits) (hc : σ.calls[c]? = some call)
    (hcalls : σ'.calls = σ.calls.set c { call with rpc := rpc }) (hhist : σ'.hist = σ.hist)
    (hn : σ'.node = (σ.setNode call.callee nd).node) (hnode : NodeRel g' call.callee nd)
    (hcand : nd.rf.state = .candidate →
      nd.rf.currentTerm = (σ.node call.callee).rf.currentTerm →
      g'.winner nd.rf.currentTerm = none → g'.log call.callee = g.log call.callee)
    (hrep : ReplyRel g' call.callee rpc) : Rel σ' g' := by
  have hlt := (List.getElem?_eq_some_iff.mp hc).1
  refine h.advance [] ht hσ hA hn hnode hcand ?_ ?_ ?_ (fun _ _ ↦ hcom ▸ Or.inl) ?_
    (by simp) (by simp)
  · intro call' hc'
    rw [hcalls, List.getElem?_eq_none (by simp)] at hc'
    simp at hc'
  · rintro c' ⟨⟩ x x' hx hx'
    obtain rfl := Option.some_inj.mp (hc.symm.trans hx)
    rw [hcalls, List.getElem?_set_self hlt, Option.some_inj] at hx'
    exact hx' ▸ hrep
  · intro b T hb hb'
    rw [hw, hb'] at hb
    simp at hb
  · rw [hhist, List.append_nil]

/-- A server acts, no election is won and no entry created. -/
theorem move {nd : Node n Cmd} (h : Rel σ g) (evs : List (Event n Cmd))
    (ht : Cluster.Trans σ act σ') (hσ : σ.AtRest) (hact : ∀ c, act ≠ .deliver c)
    (hA : Acts P g g' a) (hw : g'.winner = g.winner)
    (hcom : ∀ T k, (T, k) ∈ g'.commits → (T, k) ∈ g.commits ∨ Recorded σ'.hist T k)
    (hlen : σ'.calls.length = σ.calls.length) (hn : σ'.node = (σ.setNode a nd).node)
    (hnode : NodeRel g' a nd)
    (hcand : nd.rf.state = .candidate → nd.rf.currentTerm = (σ.node a).rf.currentTerm →
      g'.winner nd.rf.currentTerm = none → g'.log a = g.log a)
    (hevs : σ'.hist = σ.hist ++ evs) (hev : ∀ e ∈ evs, EventRel g' e)
    (hnone : ∀ b i T c, .started b i T c ∉ evs) : Rel σ' g' := by
  refine h.advance evs ht hσ hA hn hnode hcand ?_ (fun c hc ↦ absurd hc (hact c)) ?_ hcom hevs
    hev fun b i T c hs ↦ absurd hs (hnone b i T c)
  · intro call' hc'
    rw [List.getElem?_eq_none hlen.le] at hc'
    simp at hc'
  · intro b T hb hb'
    rw [hw, hb'] at hb
    simp at hb

end Rel

end DistLabs
