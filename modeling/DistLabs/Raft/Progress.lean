import DistLabs.Raft.Safety

/-!
# Progress counters

`commitIndex` is written by `updateCommitIndex` and by `tryUpdateCommit`, which raise it, and by
`InstallSnapshot`, which sets it to the end of the snapshot whenever the service is behind that.
Where entries beyond the snapshot are committed already and `guardKick` has not run yet, this takes
the commit index back: `commitIndex_goes_back` is such a run.  As long as no server is ahead of a
snapshot in that way, both counters only go forward (`counters_forward`).  For `tryUpdateCommit`,
which does not look at where the commit index was when it cuts it to the end of the log, this rests
on the ledger: committed entries are never truncated.
-/

set_option autoImplicit false

namespace DistLabs

variable {n : Nat} {Cmd : Type}

/-! ## The condition -/

/-- If this is an `InstallSnapshot` request that makes the service skip to the end of the snapshot,
then the commit index is not beyond that. -/
def Raft.SkipsForward (rf : Raft n Cmd) : Rpc n Cmd → Prop
  | .install _ args none => rf.currentTerm ≤ args.term → rf.snapIndex < args.lastIncludedIndex →
      rf.lastApplied < args.lastIncludedIndex → rf.commitIndex ≤ args.lastIncludedIndex
  | _ => True

instance (rf : Raft n Cmd) : (rpc : Rpc n Cmd) → Decidable (rf.SkipsForward rpc)
  | .install _ _ none => inferInstanceAs (Decidable (_ → _ → _ → _))
  | .install _ _ (some _) | .vote _ _ _ | .append _ _ _ => isTrue trivial

/-- If the action delivers such a request, the server it reaches has not committed beyond the
snapshot. -/
def Cluster.SkipsForward (σ : Cluster n Cmd) : Action n Cmd → Prop
  | .deliver c => ∀ call ∈ σ.calls[c]?, (σ.node call.callee).rf.SkipsForward call.rpc
  | _ => True

instance (σ : Cluster n Cmd) : (act : Action n Cmd) → Decidable (σ.SkipsForward act)
  | .deliver _ => inferInstanceAs (Decidable (∀ _ ∈ _, _))
  | .tick _ | .askVote _ _ | .replicate _ | .answer _ | .lose _ | .start _ _ | .snapshot _ _ _
  | .wake _ | .collect _ | .send _ | .sendSnap _ _ | .restart _ => isTrue trivial

/-! ## One action -/

/-- Neither counter goes back. -/
structure Raft.Forward (rf rf' : Raft n Cmd) : Prop where
  /-- The commit index. -/
  commitIndex : rf.commitIndex ≤ rf'.commitIndex
  /-- The last index handed to the service. -/
  lastApplied : rf.lastApplied ≤ rf'.lastApplied

namespace Raft

theorem Forward.refl (rf : Raft n Cmd) : Forward rf rf := ⟨le_rfl, le_rfl⟩

variable [Labgob (Saved n Cmd)]

theorem seeTerm_forward (rf : Raft n Cmd) (T : Int) : Forward rf (rf.seeTerm T) :=
  ⟨by simp, by simp⟩

theorem installSnapshot_forward {rf rf' : Raft n Cmd} {k : Nat} {args : InstallSnapshotArgs n}
    {reply : Int} {msg : Option (ApplyMsg Cmd)}
    (h : rf.installSnapshot args = some (rf', reply, msg))
    (hok : rf.SkipsForward (.install k args none)) : Forward rf rf' := by
  rcases (installSnapshot_spec h).2 with ⟨-, rfl, -⟩ | ⟨hle, hlt, ⟨-, -, rfl⟩ | ⟨happ, -, rfl⟩⟩
  · exact seeTerm_forward rf _
  · exact ⟨by simp [restored, persist], by simp [restored, persist]⟩
  · exact ⟨hok hle hlt happ, happ.le⟩

theorem singleAppendReply_forward {rf rf' : Raft n Cmd} {i : Fin n}
    {args : AppendEntriesArgs n Cmd} {reply : AppendEntriesReply}
    (h : rf.singleAppendReply i args reply = some rf') : Forward rf rf' := by
  rcases singleAppendReply_spec h with rfl | ⟨-, -, -, -, next, v, -, -, rfl⟩ |
    ⟨-, -, -, m, next, rf₁, -, -, rfl, rfl | ⟨M, e, c, hM, -, -, -, -, -, rfl⟩⟩
  · exact seeTerm_forward rf _
  · exact ⟨le_rfl, le_rfl⟩
  · exact ⟨le_rfl, le_rfl⟩
  · exact ⟨hM.le, le_rfl⟩

end Raft

namespace Cluster

variable [Labgob (Saved n Cmd)] {σ σ' : Cluster n Cmd} {act : Action n Cmd}
  {g : RaftLedger n Cmd}

/-- **No action takes a counter back**, on a server that does not restart. -/
theorem Trans.forward (h : Trans σ act σ') (hg : Rel σ g) (hok : σ.SkipsForward act) {a : Fin n}
    (hre : act ≠ .restart a) : Raft.Forward (σ.node a).rf (σ'.node a).rf := by
  have hsame : ∀ b, Raft.Forward (σ.node b).rf (σ.node b).rf := fun b ↦ Raft.Forward.refl _
  have hone : ∀ {b : Fin n} {nd : Node n Cmd}, Raft.Forward (σ.node b).rf nd.rf →
      Raft.Forward (σ.node a).rf ((σ.setNode b nd).node a).rf := fun hb ↦
    forall_setNode (P := fun x nd ↦ Raft.Forward (σ.node x).rf nd.rf) hb hsame a
  cases h with
  | askVote | replicateIdle | replicateAppend | replicateInstall | lose | startRefused
  | snapshotOld => exact hsame a
  | tick | elect | start | snapshot | wake | send | sendSnap => exact hone ⟨le_rfl, le_rfl⟩
  | deliverVote _ _ hr =>
    rcases (Raft.requestVote_spec hr).2 with ⟨-, rfl⟩ | ⟨-, -, -, -, rfl⟩
    · exact hone (Raft.seeTerm_forward _ _)
    · exact hone ⟨by simp [Raft.persist], by simp [Raft.persist]⟩
  | @deliverAppend c k call args rf reply hc hr hrf =>
    have hreq := hg.request call (List.mem_of_getElem? hc)
    rw [hr] at hreq
    obtain ⟨-, -, -, -, -, happ, hcom, -⟩ :=
      (hg.node call.callee).server.appendEntries (P := True) hg.inv hreq hrf
    exact hone ⟨hcom, happ.ge⟩
  | @deliverInstall c k call args rf reply msg hc hr hrf =>
    have hskip := hok call hc
    rw [hr] at hskip
    exact hone (Raft.installSnapshot_forward hrf hskip)
  | answerVote | countVote => exact hone (Raft.seeTerm_forward _ _)
  | answerAppend _ _ _ hr => exact hone (Raft.singleAppendReply_forward hr)
  | answerInstall _ _ _ hr =>
    rcases Raft.helpInstallReply_spec hr with rfl | ⟨-, m, next, -, -, rfl⟩
    · exact hone (Raft.seeTerm_forward _ _)
    · exact hone ⟨le_rfl, le_rfl⟩
  | collect _ hk =>
    obtain ⟨rfl, -⟩ := Raft.guardKick_spec hk
    exact hone ⟨le_rfl, le_max_left _ _⟩
  | @restart b rf =>
    have hab : a ≠ b := fun hab ↦ hre (hab ▸ rfl)
    change Raft.Forward _ ((σ.setNode b _).node a).rf
    rw [setNode_of_ne σ _ hab]
    exact hsame a

/-! ## Whole runs -/

/-- **Progress counters only go forward.**  In a run whose elections are won by majorities, and in
which no server has committed beyond a snapshot that its service skips to: what is handed to the
service is committed in every state, and no step but its own restart decreases the commit index of a
server or the last index it has handed to its service. -/
theorem counters_forward
    (h : (machine n Cmd).Reach (fun σ act σ' ↦ σ'.MajorityBacked ∧ σ.SkipsForward act) σ) :
    (∀ a, (σ.node a).rf.lastApplied ≤ (σ.node a).rf.commitIndex) ∧
    ∀ act σ', σ.step act = some σ' → σ.SkipsForward act → ∀ a, act ≠ .restart a →
        (σ.node a).rf.commitIndex ≤ (σ'.node a).rf.commitIndex ∧
        (σ.node a).rf.lastApplied ≤ (σ'.node a).rf.lastApplied := by
  obtain ⟨g, hg, -⟩ := rel_of_reach (fun _ _ _ hp ↦ hp.1) h
  refine ⟨fun a ↦ (hg.node a).server.applied, fun act σ' hs hok a hre ↦ ?_⟩
  have hf := (Trans.of_step hs).forward hg hok hre
  exact ⟨hf.commitIndex, hf.lastApplied⟩

/-- After the first commit the leader's `guardKick` hands over what is committed. -/
theorem counters_forward_firstCommit :
    ∃ σ σ' : Cluster 3 Nat,
      (machine 3 Nat).Reach (fun σ act σ' ↦ σ'.MajorityBacked ∧ σ.SkipsForward act) σ ∧
      σ.step (.collect 0) = some σ' ∧ (σ.node 0).rf.commitIndex = 1 ∧
      (σ.node 0).rf.commitIndex ≤ (σ'.node 0).rf.commitIndex := by
  obtain ⟨σ, hσ, hc, σ', hs, -⟩ := Machine.exists_reach_of_exec (M := machine 3 Nat)
    (P := fun σ act σ' ↦ σ'.MajorityBacked ∧ σ.SkipsForward act)
    (Q := fun σ ↦ (σ.node 0).rf.commitIndex = 1 ∧
      ∃ σ' ∈ σ.step (.collect 0), (σ'.node 0).rf.lastApplied = 1)
    (firstCommit ++ [.wake 0]) (by decide +kernel)
  exact ⟨σ, σ', hσ, hs, hc,
    ((counters_forward hσ).2 _ σ' hs trivial 0 (by simp)).1⟩

/-- The leader commits three commands with server `1`.  Its request with all of them to server `2`
is given up at its end, though it will still arrive; it compacts at index `2` and sends server `2`
its snapshot.  Then server `2` gets the entries, with commit index `3`. -/
def lateSnapshot : List (Action 3 Nat) :=
  firstElection ++ [.start 0 (some 10), .start 0 (some 11), .start 0 (some 12), .replicate 0,
    .deliver 1, .answer 1, .replicate 1, .lose 2, .wake 0, .collect 0, .send 0, .send 0,
    .snapshot 0 2 [7], .replicate 1, .deliver 2]

/-- **The commit index goes back**: when the snapshot arrives, before `guardKick` has run, server
`2` goes from commit index `3` to `2`. -/
theorem commitIndex_goes_back :
    ∃ σ σ' : Cluster 3 Nat, (machine 3 Nat).Reach (fun _ _ σ' ↦ σ'.MajorityBacked) σ ∧
      σ.step (.deliver 3) = some σ' ∧ σ'.MajorityBacked ∧
      (σ.node 2).rf.commitIndex = 3 ∧ (σ'.node 2).rf.commitIndex = 2 := by
  obtain ⟨σ, hσ, h3, σ', hs, hm, h2⟩ := Machine.exists_reach_of_exec (M := machine 3 Nat)
    (P := fun _ _ σ' ↦ σ'.MajorityBacked)
    (Q := fun σ ↦ (σ.node 2).rf.commitIndex = 3 ∧ ∃ σ' ∈ σ.step (.deliver 3),
      σ'.MajorityBacked ∧ (σ'.node 2).rf.commitIndex = 2)
    lateSnapshot (by decide +kernel)
  exact ⟨σ, σ', hσ, hs, hm, h3, h2⟩

end Cluster

end DistLabs
