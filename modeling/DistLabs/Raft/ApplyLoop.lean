import DistLabs.Raft.Compaction

/-!
# The apply loop of one incarnation

`guardKick` sleeps on `wakeCh`, a channel of capacity one.  Whoever moves the commit index leaves a
token there, unless there is one.  Between taking a token and getting the lock, and again while it
sends its batch, `guardKick` does not look: the commit index may move, a snapshot may come in, and
more tokens may be dropped.

An `Incarnation` is one server from its `Make` to its crash, with `guardKick`'s position and a
record of the batches it has built and of the indexes that `InstallSnapshot` has passed over.  All
other sections that run under the lock are actions with arbitrary arguments, so nothing is assumed
about the network or the other servers.

* A wake-up is never lost: `Raft.Wakes` says that a section that leaves something to be applied
  leaves a token, or there was something before and the token stays.
* `lastApplied` never goes back, and a batch lies between the old and the new value; so no index is
  in two batches (`Incarnation.Inv`).
-/

set_option autoImplicit false

namespace DistLabs

variable {n : Nat} {Cmd : Type}

/-- A batch that `guardKick` has built. -/
structure Batch (Cmd : Type) where
  /-- The first index that was due. -/
  first : Nat
  /-- The last index that was due. -/
  last : Nat
  /-- Where the snapshot ended. -/
  snapIndex : Nat
  /-- The messages. -/
  msgs : List (ApplyMsg Cmd)

/-- One incarnation of a server. -/
structure Incarnation (n : Nat) (Cmd : Type) where
  /-- The server. -/
  rf : Raft n Cmd
  /-- `guardKick` has taken a token and not yet the lock. -/
  woken : Bool
  /-- What is left of the batch `guardKick` is sending. -/
  batch : List (ApplyMsg Cmd)
  /-- The batches it has built, oldest first. -/
  built : List (Batch Cmd)
  /-- From where to where `InstallSnapshot` has moved `lastApplied`, oldest first. -/
  passed : List (Nat × Nat)

namespace Incarnation

/-- The sections that run under the lock, and the two moves of `guardKick` outside it. -/
inductive Action (n : Nat) (Cmd : Type)
  /-- `ticker`. -/
  | tick
  /-- The handler `RequestVote`. -/
  | requestVote (args : RequestVoteArgs n)
  /-- `collectOpinion`, after the RPC. -/
  | opinionReply (args : RequestVoteArgs n) (reply : RequestVoteReply) (supporter : Nat)
  /-- The handler `AppendEntries`. -/
  | appendEntries (args : AppendEntriesArgs n Cmd)
  /-- `singleAppend`, after the RPC. -/
  | singleAppendReply (i : Fin n) (args : AppendEntriesArgs n Cmd) (reply : AppendEntriesReply)
  /-- The handler `InstallSnapshot`. -/
  | installSnapshot (args : InstallSnapshotArgs n)
  /-- `helpInstall`, after the RPC. -/
  | helpInstallReply (i : Fin n) (args : InstallSnapshotArgs n) (reply : Int)
  /-- `Start`. -/
  | start (command : Option Cmd)
  /-- `Snapshot`. -/
  | snapshot (index : Nat) (data : Bytes)
  /-- `guardKick` takes a token. -/
  | wake
  /-- `guardKick` builds a batch. -/
  | collect
  /-- `guardKick` has sent the next message of its batch. -/
  | send

variable [Labgob (Saved n Cmd)]

/-- One action. -/
def step (s : Incarnation n Cmd) : Action n Cmd → Option (Incarnation n Cmd)
  | .tick => if s.rf.state = .leader then none else some { s with rf := s.rf.becomeCandidate }
  | .requestVote args => do
    let (rf, _) ← s.rf.requestVote args
    return { s with rf := rf }
  | .opinionReply args reply supporter =>
    some { s with rf := (s.rf.opinionReply args reply supporter).1 }
  | .appendEntries args => do
    let (rf, _) ← s.rf.appendEntries args
    return { s with rf := rf }
  | .singleAppendReply i args reply => do
    let rf ← s.rf.singleAppendReply i args reply
    return { s with rf := rf }
  | .installSnapshot args => do
    let (rf, _, _) ← s.rf.installSnapshot args
    return { s with
      rf := rf
      passed := s.passed ++
        if s.rf.lastApplied < rf.lastApplied then [(s.rf.lastApplied, rf.lastApplied)] else [] }
  | .helpInstallReply i args reply => do
    let rf ← s.rf.helpInstallReply i args reply
    return { s with rf := rf }
  | .start command => some { s with rf := (s.rf.start command).1 }
  | .snapshot index data => do
    let rf ← s.rf.snapshotAt index data
    return { s with rf := rf }
  | .wake =>
    if s.rf.wakeCh = true ∧ s.woken = false ∧ s.batch = [] then
      some { s with rf := { s.rf with wakeCh := false }, woken := true }
    else none
  | .collect =>
    if s.woken = true then do
      let (rf, msgs) ← s.rf.guardKick
      return { s with
        rf := rf, woken := false, batch := msgs
        built := s.built ++ if s.rf.lastApplied < s.rf.commitIndex then
          [⟨s.rf.lastApplied + 1, s.rf.commitIndex, s.rf.snapIndex, msgs⟩] else [] }
    else none
  | .send =>
    match s.batch with
    | [] => none
    | _ :: rest => some { s with batch := rest }

/-- An incarnation that starts as `rf`. -/
def machine (rf : Raft n Cmd) : Machine (Incarnation n Cmd) (Action n Cmd) :=
  ⟨⟨rf, false, [], [], []⟩, step⟩

end Incarnation

/-! ## Tokens -/

namespace Raft

/-- A section that leaves `lastApplied` alone, and a token for whatever it leaves to be applied. -/
structure Wakes (rf rf' : Raft n Cmd) : Prop where
  /-- `lastApplied` stays. -/
  lastApplied : rf'.lastApplied = rf.lastApplied
  /-- If something is to be applied, there is a token, or nothing has changed about that. -/
  wakeCh : rf'.lastApplied < rf'.commitIndex → rf'.wakeCh = true ∨
    rf.lastApplied < rf.commitIndex ∧ rf'.wakeCh = rf.wakeCh

variable {rf rf' rf'' : Raft n Cmd}

namespace Wakes

theorem of_eq (hl : rf'.lastApplied = rf.lastApplied) (hc : rf'.commitIndex = rf.commitIndex)
    (hw : rf'.wakeCh = rf.wakeCh) : Wakes rf rf' :=
  ⟨hl, fun hlt ↦ Or.inr ⟨by omega, hw⟩⟩

theorem of_token (hl : rf'.lastApplied = rf.lastApplied) (hw : rf'.wakeCh = true) : Wakes rf rf' :=
  ⟨hl, fun _ ↦ Or.inl hw⟩

theorem trans (h : Wakes rf rf') (h' : Wakes rf' rf'') : Wakes rf rf'' := by
  refine ⟨h'.lastApplied.trans h.lastApplied, fun hlt ↦ ?_⟩
  rcases h'.wakeCh hlt with htoken | ⟨hlt', heq⟩
  · exact Or.inl htoken
  · rcases h.wakeCh hlt' with htoken | ⟨hlt'', heq'⟩
    · exact Or.inl (heq.trans htoken)
    · exact Or.inr ⟨hlt'', heq.trans heq'⟩

theorem tryUpdateCommit (rf : Raft n Cmd) (leaderCommit : Nat) :
    Wakes rf (rf.tryUpdateCommit leaderCommit) := by
  rw [Raft.tryUpdateCommit]
  split
  · dsimp only
    split
    · exact of_token rfl rfl
    · next hle => exact ⟨rfl, fun hlt ↦ absurd hlt hle⟩
  · exact of_eq rfl rfl rfl

variable [Labgob (Saved n Cmd)]

theorem seeTerm (rf : Raft n Cmd) (T : Int) : Wakes rf (rf.seeTerm T) := by
  rw [Raft.seeTerm]
  split
  · exact of_eq rfl rfl rfl
  · exact of_eq rfl rfl rfl

theorem heedLeader (rf : Raft n Cmd) (T : Int) : Wakes rf (rf.heedLeader T) := by
  rw [Raft.heedLeader]
  split
  · exact of_eq rfl rfl rfl
  split
  · exact of_eq rfl rfl rfl
  · exact of_eq rfl rfl rfl

theorem requestVote {args : RequestVoteArgs n} {reply : RequestVoteReply}
    (h : rf.requestVote args = some (rf', reply)) : Wakes rf rf' := by
  rcases (requestVote_spec h).2 with ⟨-, rfl⟩ | ⟨-, -, -, -, rfl⟩
  · exact seeTerm rf _
  · exact (seeTerm rf _).trans (of_eq rfl rfl rfl)

theorem opinionReply (rf : Raft n Cmd) (args : RequestVoteArgs n) (reply : RequestVoteReply)
    (supporter : Nat) : Wakes rf (rf.opinionReply args reply supporter).1 := by
  rw [Raft.opinionReply]
  split
  · split
    · exact (seeTerm rf _).trans (of_eq rfl rfl rfl)
    · exact seeTerm rf _
  · exact seeTerm rf _

theorem reconcileEntries {i j : Nat} {es : List (Entry Cmd)} (hi : rf.snapIndex ≤ i)
    (h : rf.reconcileEntries i j es = some rf') : Wakes rf rf' := by
  rw [reconcileEntries_spec hi h]
  exact of_token rfl rfl

theorem appendEntries {args : AppendEntriesArgs n Cmd} {reply : AppendEntriesReply}
    (h : rf.appendEntries args = some (rf', reply)) : Wakes rf rf' := by
  rcases appendEntries_spec h with ⟨rfl, -⟩ | ⟨-, -, hterm, hprev, -⟩
  · exact heedLeader rf _
  -- all paths to success end with `tryUpdateCommit`
  have hcur : ¬ args.term < (rf.heedLeader args.term).currentTerm := by simpa using hterm
  rcases Nat.lt_or_ge rf.snapIndex args.prevLogIndex with hlt | hcov
  · obtain ⟨e, he, hp⟩ := hprev.resolve_left (by omega)
    rw [appendEntries_of_normal hcur hlt he hp, Option.map_eq_some_iff] at h
    obtain ⟨rf₁, h₁, h⟩ := h
    rw [← (Prod.mk.inj h).1]
    exact ((heedLeader rf _).trans (reconcileEntries (by simp; omega) h₁)).trans
      (tryUpdateCommit rf₁ _)
  · rw [appendEntries_of_covered hcur hcov, Option.map_eq_some_iff] at h
    obtain ⟨rf₁, h₁, h⟩ := h
    rw [← (Prod.mk.inj h).1]
    refine ((heedLeader rf args.term).trans ?_).trans (tryUpdateCommit rf₁ _)
    rw [reconcileCovered] at h₁
    split at h₁
    · obtain rfl := Option.some_inj.mp h₁
      exact of_eq rfl rfl rfl
    · exact reconcileEntries (by omega) h₁

theorem singleAppendReply {i : Fin n} {args : AppendEntriesArgs n Cmd} {reply : AppendEntriesReply}
    (h : rf.singleAppendReply i args reply = some rf') : Wakes rf rf' := by
  rcases singleAppendReply_spec h with rfl | ⟨-, -, -, -, next, v, -, -, rfl⟩ |
    ⟨-, -, -, m, next, rf₁, -, -, rfl, rfl | ⟨M, e, c, -, -, -, -, -, -, rfl⟩⟩
  · exact seeTerm rf _
  · exact of_eq rfl rfl rfl
  · exact of_eq rfl rfl rfl
  · exact of_token rfl rfl

theorem helpInstallReply {i : Fin n} {args : InstallSnapshotArgs n} {reply : Int}
    (h : rf.helpInstallReply i args reply = some rf') : Wakes rf rf' := by
  rcases helpInstallReply_spec h with rfl | ⟨-, m, next, -, -, rfl⟩
  · exact seeTerm rf _
  · exact of_eq rfl rfl rfl

theorem start (rf : Raft n Cmd) (command : Option Cmd) : Wakes rf (rf.start command).1 := by
  by_cases hs : rf.state = .leader
  · rw [start_of_leader hs]
    exact of_token rfl rfl
  · rw [start_of_not_leader hs]
    exact of_eq rfl rfl rfl

theorem snapshotAt {index : Nat} {data : Bytes} (h : rf.snapshotAt index data = some rf') :
    Wakes rf rf' := by
  rcases snapshotAt_spec h with ⟨-, rfl⟩ | ⟨-, e, -, rfl⟩
  · exact of_eq rfl rfl rfl
  · exact of_eq rfl rfl rfl

end Wakes

/-- `Make` leaves nothing to be applied: both indexes are volatile. -/
theorem make_applied [Labgob (Saved n Cmd)] {me : Fin n} {persister : Persister}
    (h : make me persister = some rf) : rf.lastApplied = 0 ∧ rf.commitIndex = 0 := by
  rw [make, readPersist] at h
  split at h
  · obtain rfl := Option.some_inj.mp h
    exact ⟨rfl, rfl⟩
  split at h
  · simp at h
  · obtain rfl := Option.some_inj.mp h
    exact ⟨rfl, rfl⟩

end Raft

/-! ## One incarnation -/

namespace Incarnation

variable {s s' : Incarnation n Cmd}

/-- The indexes of all batches, in the order in which they were built. -/
def indexes (s : Incarnation n Cmd) : List Nat :=
  s.built.flatMap fun b ↦ b.msgs.map ApplyMsg.index

/-- `i` was due in a batch and within the snapshot, or `InstallSnapshot` has moved `lastApplied`
past it. -/
def Skipped (s : Incarnation n Cmd) (i : Nat) : Prop :=
  (∃ b ∈ s.built, b.first ≤ i ∧ i ≤ b.last ∧ i ≤ b.snapIndex) ∨ ∃ p ∈ s.passed, p.1 < i ∧ i ≤ p.2

/-- What holds whenever the lock is free. -/
structure Inv (s : Incarnation n Cmd) : Prop where
  /-- `guardKick` will look at what is to be applied. -/
  token : s.rf.lastApplied < s.rf.commitIndex → s.rf.wakeCh = true ∨ s.woken = true
  /-- The batches go up. -/
  increasing : s.indexes.Pairwise (· < ·)
  /-- They do not go beyond `lastApplied`. -/
  indexes_le : ∀ i ∈ s.indexes, i ≤ s.rf.lastApplied
  /-- Nothing else is left out. -/
  accounted : ∀ i, 0 < i → i ≤ s.rf.lastApplied → i ∈ s.indexes ∨ s.Skipped i

namespace Inv

theorem wakes (h : s.Inv) {rf : Raft n Cmd} (hw : s.rf.Wakes rf) : Inv { s with rf := rf } := by
  refine ⟨fun hlt ↦ ?_, h.increasing, fun i hi ↦ hw.lastApplied ▸ h.indexes_le i hi,
    fun i h0 hi ↦ h.accounted i h0 (hw.lastApplied ▸ hi)⟩
  rcases hw.wakeCh hlt with htoken | ⟨hlt', heq⟩
  · exact Or.inl htoken
  · exact (h.token hlt').imp_left heq.trans

/-- `InstallSnapshot` moves `lastApplied` and the commit index together. -/
theorem passOver (h : s.Inv) (rf : Raft n Cmd) (hle : s.rf.lastApplied < rf.lastApplied)
    (hc : rf.commitIndex = rf.lastApplied) :
    Inv { s with rf := rf, passed := s.passed ++ [(s.rf.lastApplied, rf.lastApplied)] } := by
  refine ⟨fun hlt ↦ absurd hlt (by dsimp only; omega), h.increasing,
    fun i hi ↦ (h.indexes_le i hi).trans hle.le, fun i h0 hi ↦ ?_⟩
  rcases Nat.lt_or_ge s.rf.lastApplied i with hlt | hge
  · exact Or.inr (Or.inr ⟨_, List.mem_append_right _ List.mem_cons_self, hlt, hi⟩)
  · refine (h.accounted i h0 hge).imp_right fun hskip ↦ ?_
    exact hskip.imp_right fun ⟨p, hp, hi⟩ ↦ ⟨p, List.mem_append_left _ hp, hi⟩

/-- A batch starts where `lastApplied` was and ends where it is then. -/
theorem collect (h : s.Inv) {rf : Raft n Cmd} {msgs : List (ApplyMsg Cmd)}
    (hk : s.rf.guardKick = some (rf, msgs)) (hlt : s.rf.lastApplied < s.rf.commitIndex) :
    Inv { s with
      rf := rf, woken := false, batch := msgs
      built := s.built ++ [⟨s.rf.lastApplied + 1, s.rf.commitIndex, s.rf.snapIndex, msgs⟩] } := by
  obtain ⟨rfl, hidx, -⟩ := Raft.guardKick_spec hk
  have hall : indexes { s with
      rf := { s.rf with lastApplied := max s.rf.lastApplied s.rf.commitIndex }
      woken := false, batch := msgs
      built := s.built ++ [⟨s.rf.lastApplied + 1, s.rf.commitIndex, s.rf.snapIndex, msgs⟩] } =
      s.indexes ++ List.range' (max s.rf.lastApplied s.rf.snapIndex + 1)
        (s.rf.commitIndex - max s.rf.lastApplied s.rf.snapIndex) := by
    simp [indexes, hidx]
  refine ⟨fun hlt' ↦ absurd hlt' (by dsimp only; omega), ?_, ?_, ?_⟩
  · rw [hall, List.pairwise_append]
    refine ⟨h.increasing, List.pairwise_lt_range', fun i hi j hj ↦ ?_⟩
    have := h.indexes_le i hi
    rw [List.mem_range'_1] at hj
    omega
  · rw [hall]
    intro i hi
    dsimp only
    rcases List.mem_append.mp hi with hi | hi
    · have := h.indexes_le i hi
      omega
    · rw [List.mem_range'_1] at hi
      omega
  · rw [hall]
    intro i h0 hi
    dsimp only at hi
    rcases Nat.lt_or_ge s.rf.lastApplied i with hgt | hge
    · -- due in this batch: in the snapshot, or one of its messages
      rcases Nat.lt_or_ge s.rf.snapIndex i with hsnap | hsnap
      · refine Or.inl (List.mem_append_right _ ?_)
        rw [List.mem_range'_1]
        omega
      · refine Or.inr (Or.inl ⟨_, List.mem_append_right _ List.mem_cons_self, ?_⟩)
        dsimp only
        omega
    · refine (h.accounted i h0 hge).imp (List.mem_append_left _) fun hskip ↦ ?_
      exact hskip.imp_left fun ⟨b, hb, hi⟩ ↦ ⟨b, List.mem_append_left _ hb, hi⟩

end Inv

variable [Labgob (Saved n Cmd)]

theorem inv_make {me : Fin n} {persister : Persister} {rf : Raft n Cmd}
    (h : Raft.make me persister = some rf) : (machine rf).init.Inv := by
  obtain ⟨hl, hc⟩ := Raft.make_applied h
  refine ⟨fun hlt ↦ absurd hlt (by simp [machine, hl, hc]), by simp [machine, indexes],
    by simp [machine, indexes], fun i h0 hi ↦ absurd hi ?_⟩
  simp [machine, hl]
  omega

/-- **Every section keeps the invariant.** -/
theorem Inv.step {act : Action n Cmd} (h : s.Inv) (hs : s.step act = some s') : s'.Inv := by
  cases act with
  | tick =>
    rw [Incarnation.step] at hs
    split at hs
    · simp at hs
    · obtain rfl := Option.some_inj.mp hs
      exact h.wakes (Raft.Wakes.of_eq rfl rfl rfl)
  | requestVote args =>
    obtain ⟨⟨rf, reply⟩, hr, hs⟩ := Option.bind_eq_some_iff.mp hs
    obtain rfl := Option.some_inj.mp hs
    exact h.wakes (Raft.Wakes.requestVote hr)
  | opinionReply args reply supporter =>
    obtain rfl := Option.some_inj.mp hs
    exact h.wakes (Raft.Wakes.opinionReply s.rf args reply supporter)
  | appendEntries args =>
    obtain ⟨⟨rf, reply⟩, hr, hs⟩ := Option.bind_eq_some_iff.mp hs
    obtain rfl := Option.some_inj.mp hs
    exact h.wakes (Raft.Wakes.appendEntries hr)
  | singleAppendReply i args reply =>
    obtain ⟨rf, hr, hs⟩ := Option.bind_eq_some_iff.mp hs
    obtain rfl := Option.some_inj.mp hs
    exact h.wakes (Raft.Wakes.singleAppendReply hr)
  | installSnapshot args =>
    obtain ⟨⟨rf, reply, msg⟩, hr, hs⟩ := Option.bind_eq_some_iff.mp hs
    obtain rfl := Option.some_inj.mp hs
    rcases (Raft.installSnapshot_spec hr).2 with ⟨-, rfl, -⟩ |
      ⟨-, -, ⟨-, -, rfl⟩ | ⟨happ, -, rfl⟩⟩
    · simpa using h.wakes (Raft.Wakes.seeTerm s.rf args.term)
    · have hw : s.rf.Wakes (s.rf.restored args) :=
        (Raft.Wakes.seeTerm s.rf args.term).trans (Raft.Wakes.of_eq rfl rfl rfl)
      simpa [hw.lastApplied] using h.wakes hw
    · simpa [happ] using h.passOver { s.rf.restored args with
        lastApplied := args.lastIncludedIndex, commitIndex := args.lastIncludedIndex } happ rfl
  | helpInstallReply i args reply =>
    obtain ⟨rf, hr, hs⟩ := Option.bind_eq_some_iff.mp hs
    obtain rfl := Option.some_inj.mp hs
    exact h.wakes (Raft.Wakes.helpInstallReply hr)
  | start command =>
    obtain rfl := Option.some_inj.mp hs
    exact h.wakes (Raft.Wakes.start s.rf command)
  | snapshot index data =>
    obtain ⟨rf, hr, hs⟩ := Option.bind_eq_some_iff.mp hs
    obtain rfl := Option.some_inj.mp hs
    exact h.wakes (Raft.Wakes.snapshotAt hr)
  | wake =>
    rw [Incarnation.step] at hs
    split at hs
    · obtain rfl := Option.some_inj.mp hs
      exact ⟨fun _ ↦ Or.inr rfl, h.increasing, h.indexes_le, h.accounted⟩
    · simp at hs
  | collect =>
    rw [Incarnation.step] at hs
    split at hs
    swap
    · simp at hs
    obtain ⟨⟨rf, msgs⟩, hk, hs⟩ := Option.bind_eq_some_iff.mp hs
    obtain rfl := Option.some_inj.mp hs
    by_cases hlt : s.rf.lastApplied < s.rf.commitIndex
    · simpa [hlt] using h.collect hk hlt
    · -- a token that was not needed
      obtain ⟨rfl, -, -⟩ := Raft.guardKick_spec hk
      have hmax : max s.rf.lastApplied s.rf.commitIndex = s.rf.lastApplied := by omega
      refine ⟨fun hlt' ↦ absurd hlt' (by dsimp only; omega), ?_, ?_, ?_⟩
      · simpa [hlt, indexes] using h.increasing
      · simpa [hlt, indexes, hmax] using h.indexes_le
      · simpa [hlt, indexes, hmax, Skipped] using h.accounted
  | send =>
    rw [Incarnation.step] at hs
    split at hs
    · simp at hs
    · obtain rfl := Option.some_inj.mp hs
      exact ⟨h.token, h.increasing, h.indexes_le, h.accounted⟩

theorem inv_of_reach {me : Fin n} {persister : Persister} {rf : Raft n Cmd}
    (hmake : Raft.make me persister = some rf) (h : (machine rf).Reach (fun _ _ _ ↦ True) s) :
    s.Inv :=
  h.invariant (inv_make hmake) fun _ _ _ _ hi hs _ ↦ hi.step hs

/-- **No wake-up is lost and no index is applied twice.**  Whenever the lock is free and something
is to be applied, there is a token or `guardKick` is on its way to the lock.  The indexes of the
batches go up, and an index they leave out was within the snapshot when it was due, or was passed
over by `InstallSnapshot`. -/
theorem no_lost_wakeup {me : Fin n} {persister : Persister} {rf : Raft n Cmd}
    (hmake : Raft.make me persister = some rf)
    (h : (machine rf).Reach (fun _ _ _ ↦ True) s) :
    (s.rf.lastApplied < s.rf.commitIndex → s.rf.wakeCh = true ∨ s.woken = true) ∧
    s.indexes.Pairwise (· < ·) ∧
    ∀ i, 0 < i → i ≤ s.rf.lastApplied → i ∉ s.indexes → s.Skipped i := by
  have hi := inv_of_reach hmake h
  exact ⟨hi.token, hi.increasing, fun i h0 hle hnot ↦ (hi.accounted i h0 hle).resolve_left hnot⟩

end Incarnation

namespace Incarnation

/-- Two batches of one server, with a snapshot from the leader after the first and one of its own
service before the second; a third batch is due. -/
def twoBatches : List (Action 3 Nat) :=
  [.appendEntries ⟨1, 1, 0, -1, [⟨1, some 7⟩, ⟨1, some 8⟩], 2⟩, .wake, .collect, .send,
    .installSnapshot ⟨1, 1, 4, 1, []⟩, .send,
    .appendEntries ⟨1, 1, 4, 1, [⟨1, some 9⟩, ⟨1, some 3⟩, ⟨1, some 5⟩], 6⟩, .snapshot 5 [],
    .wake, .collect, .appendEntries ⟨1, 1, 7, 1, [], 7⟩]

theorem no_lost_wakeup_twoBatches :
    ∃ s : Incarnation 3 Nat, (machine (.fresh 0 .empty)).Reach (fun _ _ _ ↦ True) s ∧
      s.indexes = [1, 2, 6] ∧ s.rf.lastApplied < s.rf.commitIndex ∧
      (s.rf.wakeCh = true ∨ s.woken = true) ∧ s.Skipped 4 ∧ s.Skipped 5 := by
  obtain ⟨s, hs, hidx, hdue, hl⟩ :=
    Machine.exists_reach_of_exec (M := machine (.fresh 0 .empty : Raft 3 Nat))
      (P := fun _ _ _ ↦ True)
      (Q := fun s ↦ s.indexes = [1, 2, 6] ∧ s.rf.lastApplied < s.rf.commitIndex ∧
        s.rf.lastApplied = 6)
      twoBatches (by decide +kernel)
  have hmake : Raft.make 0 .empty = some (.fresh 0 .empty : Raft 3 Nat) := rfl
  obtain ⟨htoken, -, hskip⟩ := no_lost_wakeup hmake hs
  exact ⟨s, hs, hidx, hdue, htoken hdue, hskip 4 (by decide) (by omega) (by simp [hidx]),
    hskip 5 (by decide) (by omega) (by simp [hidx])⟩

end Incarnation

/-! ## The servers of a cluster -/

/-- A node is what an incarnation of server `a` has become. -/
def Node.Runs [Labgob (Saved n Cmd)] (nd : Node n Cmd) (a : Fin n) : Prop :=
  ∃ persister rf built passed, Raft.make a persister = some rf ∧
    (Incarnation.machine rf).Reach (fun _ _ _ ↦ True) ⟨nd.rf, nd.woken, nd.batch, built, passed⟩

namespace Node.Runs

variable [Labgob (Saved n Cmd)] {a : Fin n} {nd nd' : Node n Cmd}

theorem of_make {persister : Persister} {rf : Raft n Cmd} (h : Raft.make a persister = some rf)
    {snapSends received : List (ApplyMsg Cmd)} {startIndex : Nat} :
    Node.Runs ⟨rf, false, [], snapSends, received, startIndex⟩ a :=
  ⟨persister, rf, [], [], h, .init⟩

theorem step (h : nd.Runs a) (act : Incarnation.Action n Cmd)
    (hs : ∀ built passed, ∃ built' passed',
      Incarnation.step ⟨nd.rf, nd.woken, nd.batch, built, passed⟩ act =
        some ⟨nd'.rf, nd'.woken, nd'.batch, built', passed'⟩) : nd'.Runs a := by
  obtain ⟨persister, rf, built, passed, hmake, hr⟩ := h
  obtain ⟨built', passed', hs⟩ := hs built passed
  exact ⟨persister, rf, built', passed', hmake, hr.step hs trivial⟩

/-- A section of the server that is none of `guardKick` and `InstallSnapshot`. -/
theorem setRf (h : nd.Runs a) {rf : Raft n Cmd} (act : Incarnation.Action n Cmd)
    (hs : ∀ s : Incarnation n Cmd, s.rf = nd.rf → s.step act = some { s with rf := rf }) :
    Node.Runs { nd with rf := rf } a :=
  h.step act fun built passed ↦ ⟨built, passed, hs ⟨_, _, _, built, passed⟩ rfl⟩

end Node.Runs

namespace Cluster

variable [Labgob (Saved n Cmd)] {σ σ' : Cluster n Cmd}

/-- **Every action of the cluster is one of the incarnations', or a restart.** -/
theorem runs_step {act : Action n Cmd} (hstep : σ.step act = some σ')
    (hi : ∀ a, (σ.node a).Runs a) (a : Fin n) : (σ'.node a).Runs a := by
  have hone : ∀ {b : Fin n} {nd : Node n Cmd}, nd.Runs b → ((σ.setNode b nd).node a).Runs a :=
    fun hb ↦ forall_setNode (P := fun a nd ↦ nd.Runs a) hb hi a
  cases Trans.of_step hstep with
  | @tick b hs => exact hone ((hi b).setRf .tick fun s h ↦ by rw [Incarnation.step, h, if_neg hs])
  | askVote | replicateIdle | replicateAppend | replicateInstall | lose | startRefused
  | snapshotOld => exact hi a
  | @deliverVote c r call args rf reply hc hr hrf =>
    exact hone ((hi call.callee).setRf (.requestVote args) fun s h ↦ by
      simp [Incarnation.step, h, hrf])
  | @deliverAppend c k call args rf reply hc hr hrf =>
    exact hone ((hi call.callee).setRf (.appendEntries args) fun s h ↦ by
      simp [Incarnation.step, h, hrf])
  | @deliverInstall c k call args rf reply msg hc hr hrf =>
    exact hone ((hi call.callee).step (.installSnapshot args) fun built passed ↦
      ⟨built, _, by simp only [Incarnation.step, hrf]; rfl⟩)
  | @answerVote c r call args reply op hc hw hr hop hn =>
    exact hone ((hi call.caller).setRf (.opinionReply args reply op.supporter) fun s h ↦ by
      simp [Incarnation.step, Raft.opinionReply, h, hn])
  | @countVote c r call args reply op hc hw hr hop hv hfew =>
    exact hone ((hi call.caller).setRf (.opinionReply args reply op.supporter) fun s h ↦ by
      simp only [Incarnation.step, Raft.opinionReply, h, hv, hfew, if_true, if_false])
  | @elect c r call args reply op hc hw hr hop hv hmany =>
    have hsee := (Raft.countsVote_spec hv).2.2.2
    exact hone ((hi call.caller).setRf (.opinionReply args reply op.supporter) fun s h ↦ by
      simp only [Incarnation.step, Raft.opinionReply, h, hv, hmany, hsee, if_true])
  | @answerAppend c k call args reply rf hc hw hr hrf =>
    exact hone ((hi call.caller).setRf (.singleAppendReply call.callee args reply) fun s h ↦ by
      simp [Incarnation.step, h, hrf])
  | @answerInstall c k call args reply rf hc hw hr hrf =>
    exact hone ((hi call.caller).setRf (.helpInstallReply call.callee args reply) fun s h ↦ by
      simp [Incarnation.step, h, hrf])
  | @start b command hs =>
    exact hone ((hi b).setRf (.start command) fun s h ↦ by
      rw [Incarnation.step, h, Raft.start_of_leader hs])
  | @snapshot b index data e hm hlt he =>
    exact hone ((hi b).setRf (.snapshot index data) fun s h ↦ by
      simp [Incarnation.step, Raft.snapshotAt, h, Nat.not_le.mpr hlt, he])
  | @wake b hw hb =>
    -- the token itself is the guard of the action
    have htoken : (σ.node b).rf.wakeCh = true := by
      by_contra hno
      simp [Cluster.step, Cluster.wake, hno] at hstep
    exact hone ((hi b).step .wake fun built passed ↦
      ⟨built, passed, if_pos ⟨htoken, hw, hb⟩⟩)
  | @collect b rf batch hw hk =>
    exact hone ((hi b).step .collect fun built passed ↦
      ⟨_, passed, by simp only [Incarnation.step, hw, hk, if_true]; rfl⟩)
  | @send b m rest hb =>
    exact hone ((hi b).step .send fun built passed ↦
      ⟨built, passed, by simp [Incarnation.step, hb]⟩)
  | @sendSnap b k m hm => exact hone (hi b)
  | restart hmake => exact hone (.of_make hmake)

/-- **Every server of every run is an incarnation from its last `Make` on**, so what is proved of
incarnations holds of it. -/
theorem runs_of_reach (h : (machine n Cmd).Reach (fun _ _ _ ↦ True) σ) (a : Fin n) :
    (σ.node a).Runs a := by
  have hmake : ∀ a, Raft.make a .empty = some (.fresh a .empty : Raft n Cmd) := fun _ ↦ rfl
  exact h.invariant (I := fun σ ↦ ∀ a, (σ.node a).Runs a) (fun a ↦ .of_make (hmake a))
    (fun _ _ _ _ hi hs _ ↦ runs_step hs hi) a

/-- In a cluster, too, what is to be applied has a token. -/
theorem token_of_reach (h : (machine n Cmd).Reach (fun _ _ _ ↦ True) σ) (a : Fin n)
    (hdue : (σ.node a).rf.lastApplied < (σ.node a).rf.commitIndex) :
    (σ.node a).rf.wakeCh = true ∨ (σ.node a).woken = true := by
  obtain ⟨persister, rf, built, passed, hmake, hr⟩ := runs_of_reach h a
  exact (Incarnation.inv_of_reach hmake hr).token hdue

end Cluster

end DistLabs
