import DistLabs.Raft.Votes

/-!
# Roles and what is recorded of them

A server becomes a candidate in `ticker` and a leader in `becomeLeader`, and both are recorded.
Everything else leaves its role and its term alone or makes it a follower (`RoleKept`).  So a
candidate is a recorded candidate of its current term, and a leader a recorded winner of it.
-/

set_option autoImplicit false

namespace DistLabs

variable {n : Nat} {Cmd : Type}

namespace Raft

/-- The server is a follower now, or what it was, in the term it was in. -/
def RoleKept (rf rf' : Raft n Cmd) : Prop :=
  rf'.state = .follower ∨ rf'.state = rf.state ∧ rf'.currentTerm = rf.currentTerm

theorem RoleKept.refl (rf : Raft n Cmd) : RoleKept rf rf := Or.inr ⟨rfl, rfl⟩

theorem RoleKept.trans {rf rf' rf'' : Raft n Cmd} (h : RoleKept rf rf') (h' : RoleKept rf' rf'') :
    RoleKept rf rf'' := by
  rcases h' with hf | ⟨hs, ht⟩
  · exact Or.inl hf
  · rcases h with hf | ⟨hs', ht'⟩
    · exact Or.inl (hs.trans hf)
    · exact Or.inr ⟨hs.trans hs', ht.trans ht'⟩

variable [Labgob (Saved n Cmd)]

theorem seeTerm_roleKept (rf : Raft n Cmd) (T : Int) : RoleKept rf (rf.seeTerm T) := by
  rw [seeTerm]
  split
  · exact Or.inl rfl
  · exact RoleKept.refl rf

theorem heedLeader_roleKept (rf : Raft n Cmd) (T : Int) : RoleKept rf (rf.heedLeader T) := by
  refine (seeTerm_roleKept rf T).trans ?_
  rw [heedLeader_eq]
  split
  · exact Or.inl rfl
  · exact RoleKept.refl _

theorem requestVote_roleKept {rf rf' : Raft n Cmd} {args : RequestVoteArgs n}
    {reply : RequestVoteReply} (h : rf.requestVote args = some (rf', reply)) :
    RoleKept rf rf' := by
  rcases (requestVote_spec h).2 with ⟨-, rfl⟩ | ⟨-, -, -, -, rfl⟩
  · exact seeTerm_roleKept rf _
  · exact (seeTerm_roleKept rf args.term).trans (RoleKept.refl _)

theorem appendEntries_roleKept {rf rf' : Raft n Cmd} {args : AppendEntriesArgs n Cmd}
    {reply : AppendEntriesReply} (h : rf.appendEntries args = some (rf', reply)) :
    RoleKept rf rf' := by
  have hh := heedLeader_roleKept rf args.term
  rcases appendEntries_spec h with ⟨rfl, -⟩ | ⟨-, -, -, -, w, rf₁, hrf₁, rfl⟩
  · exact hh
  · rcases hrf₁ with ⟨rfl, -⟩ | rfl <;> exact hh

theorem installSnapshot_roleKept {rf rf' : Raft n Cmd} {args : InstallSnapshotArgs n} {reply : Int}
    {msg : Option (ApplyMsg Cmd)} (h : rf.installSnapshot args = some (rf', reply, msg)) :
    RoleKept rf rf' := by
  have hs := seeTerm_roleKept rf args.term
  rcases (installSnapshot_spec h).2 with ⟨-, rfl, -⟩ | ⟨-, -, ⟨-, -, rfl⟩ | ⟨-, -, rfl⟩⟩ <;>
    exact hs

theorem singleAppendReply_roleKept {rf rf' : Raft n Cmd} {i : Fin n}
    {args : AppendEntriesArgs n Cmd} {reply : AppendEntriesReply}
    (h : rf.singleAppendReply i args reply = some rf') : RoleKept rf rf' := by
  rcases singleAppendReply_spec h with rfl | ⟨-, -, -, -, next, v, -, -, rfl⟩ |
    ⟨-, -, -, m, next, rf₁, -, -, rfl, hcase⟩
  · exact seeTerm_roleKept rf _
  · exact RoleKept.refl rf
  · rcases hcase with rfl | ⟨M, e, c, -, -, -, -, -, -, rfl⟩ <;> exact RoleKept.refl rf

theorem helpInstallReply_roleKept {rf rf' : Raft n Cmd} {i : Fin n} {args : InstallSnapshotArgs n}
    {reply : Int} (h : rf.helpInstallReply i args reply = some rf') : RoleKept rf rf' := by
  rcases helpInstallReply_spec h with rfl | ⟨-, m, next, -, -, rfl⟩
  · exact seeTerm_roleKept rf _
  · exact RoleKept.refl rf

end Raft

namespace Cluster

variable [Labgob (Saved n Cmd)]

/-- **Roles change only on record.** -/
theorem Trans.role {σ σ' : Cluster n Cmd} {act : Action n Cmd} (h : Trans σ act σ')
    (hσ : σ.AtRest) (a : Fin n) :
    Raft.RoleKept (σ.node a).rf (σ'.node a).rf ∨
    ((σ'.node a).rf = (σ.node a).rf.becomeCandidate ∧
      .candidate a (σ'.node a).rf.currentTerm ∈ σ'.hist) ∨
    ((σ.node a).rf.state = .candidate ∧ (σ'.node a).rf = (σ.node a).rf.becomeLeader ∧
      .elected a (σ'.node a).rf.currentTerm ∈ σ'.hist) := by
  have hsame : ∀ b, Raft.RoleKept (σ.node b).rf (σ.node b).rf := fun b ↦ Raft.RoleKept.refl _
  have hone : ∀ {b : Fin n} {nd : Node n Cmd}, Raft.RoleKept (σ.node b).rf nd.rf →
      Raft.RoleKept (σ.node a).rf ((σ.setNode b nd).node a).rf := fun hb ↦
    forall_setNode (P := fun x nd ↦ Raft.RoleKept (σ.node x).rf nd.rf) hb hsame a
  cases h with
  | @tick b hs =>
    by_cases hab : a = b
    · subst hab
      exact Or.inr (Or.inl ⟨by simp, by simp [Raft.becomeCandidate, Raft.persist]⟩)
    · refine Or.inl ?_
      change Raft.RoleKept _ ((σ.setRf b _).node a).rf
      rw [setRf, setNode_of_ne σ _ hab]
      exact hsame a
  | @elect c r call args reply op hc hw hr hop hv hmany =>
    by_cases hab : a = call.caller
    · subst hab
      obtain ⟨-, hs, ht, -⟩ := Raft.countsVote_spec hv
      exact Or.inr (Or.inr ⟨hs, by simp, by simp [Raft.becomeLeader, ht]⟩)
    · refine Or.inl ?_
      change Raft.RoleKept _ ((σ.setRf call.caller _).node a).rf
      rw [setRf, setNode_of_ne σ _ hab]
      exact hsame a
  | askVote | replicateIdle | replicateAppend | replicateInstall | lose | startRefused
  | snapshotOld => exact Or.inl (hsame a)
  | deliverVote _ _ hr => exact Or.inl (hone (Raft.requestVote_roleKept hr))
  | deliverAppend _ _ hr => exact Or.inl (hone (Raft.appendEntries_roleKept hr))
  | deliverInstall _ _ hr => exact Or.inl (hone (Raft.installSnapshot_roleKept hr))
  | answerVote => exact Or.inl (hone (Raft.seeTerm_roleKept _ _))
  | countVote => exact Or.inl (hone (Raft.seeTerm_roleKept _ _))
  | answerAppend _ _ _ hr => exact Or.inl (hone (Raft.singleAppendReply_roleKept hr))
  | answerInstall _ _ _ hr => exact Or.inl (hone (Raft.helpInstallReply_roleKept hr))
  | collect _ hk =>
    obtain ⟨rfl, -⟩ := Raft.guardKick_spec hk
    exact Or.inl (hone (Raft.RoleKept.refl _))
  | start | snapshot | wake | send | sendSnap => exact Or.inl (hone (Raft.RoleKept.refl _))
  | @restart b rf hmake =>
    obtain rfl := hσ.make hmake
    exact Or.inl (hone (Or.inl rfl))

/-- The roles are those recorded. -/
structure RoleInv (σ : Cluster n Cmd) : Prop where
  /-- A candidate has become one in its term. -/
  candidate : ∀ a, (σ.node a).rf.state = .candidate →
    .candidate a (σ.node a).rf.currentTerm ∈ σ.hist
  /-- A leader has won its term. -/
  leader : ∀ a, (σ.node a).rf.state = .leader → .elected a (σ.node a).rf.currentTerm ∈ σ.hist
  /-- A winner has reached the term it won, and is no candidate in it any more. -/
  elected : ∀ a T, .elected a T ∈ σ.hist → T ≤ (σ.node a).rf.currentTerm ∧
    ((σ.node a).rf.currentTerm = T → (σ.node a).rf.state ≠ .candidate)
  /-- Terms count from zero, and candidates' from one. -/
  nonneg : ∀ a, 0 ≤ (σ.node a).rf.currentTerm

theorem RoleInv.step {σ σ' : Cluster n Cmd} {act : Action n Cmd} (h : Trans σ act σ')
    (hσ : σ.AtRest) (hi : σ.RoleInv) : σ'.RoleInv := by
  have hrole := h.role hσ
  constructor
  · intro a hs
    rcases hrole a with hk | ⟨-, hev⟩ | ⟨-, hrf, -⟩
    · rcases hk with hf | ⟨hs', ht⟩
      · rw [hf] at hs; simp at hs
      · rw [ht]
        exact h.hist_subset (hi.candidate a (hs' ▸ hs))
    · exact hev
    · rw [hrf] at hs
      simp [Raft.becomeLeader] at hs
  · intro a hs
    rcases hrole a with hk | ⟨hrf, -⟩ | ⟨-, -, hev⟩
    · rcases hk with hf | ⟨hs', ht⟩
      · rw [hf] at hs; simp at hs
      · rw [ht]
        exact h.hist_subset (hi.leader a (hs' ▸ hs))
    · rw [hrf] at hs
      simp [Raft.becomeCandidate, Raft.persist] at hs
    · exact hev
  · intro a T hev
    rcases h.mem_hist hev with hold | hnew
    · obtain ⟨hle, hnc⟩ := hi.elected a T hold
      have hmono := (h.evolves hσ a).term
      refine ⟨by omega, fun heq hs ↦ ?_⟩
      rcases hrole a with hk | ⟨hrf, -⟩ | ⟨-, hrf, -⟩
      · rcases hk with hf | ⟨hs', ht⟩
        · rw [hf] at hs; simp at hs
        · exact hnc (by omega) (hs' ▸ hs)
      · have : (σ'.node a).rf.currentTerm = (σ.node a).rf.currentTerm + 1 := by rw [hrf]; rfl
        omega
      · rw [hrf] at hs
        simp [Raft.becomeLeader] at hs
    · cases hnew with
      | elected hc hw hr hop hv hmany hop' hev' hrf =>
        rw [hrf]
        exact ⟨(Raft.countsVote_spec hv).2.2.1.ge, fun _ hs ↦ by simp [Raft.becomeLeader] at hs⟩
  · exact fun a ↦ (hi.nonneg a).trans (h.evolves hσ a).term

theorem roleInv_of_reach {P : Cluster n Cmd → Action n Cmd → Cluster n Cmd → Prop}
    {σ : Cluster n Cmd} (h : (machine n Cmd).Reach P σ) : σ.RoleInv := by
  refine h.invariant (I := RoleInv) ?_ fun σ act σ' hr hi hs _ ↦
    hi.step (Trans.of_step hs) (atRest_of_reach hr)
  constructor <;> intro a <;> simp [machine, init, Raft.fresh]

end Cluster

end DistLabs
