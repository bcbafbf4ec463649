import DistLabs.Raft.Durable

/-!
# One vote per server and term

`Voted σ v c T` says that `v` supports `c` in term `T`: it granted `c` its vote, or it is `c` and
became a candidate.  A vote is only ever given in the voter's current term and to the candidate it
then has in `votedFor`; `Raft.Evolves` says that within the term this does not change, and that
terms do not come back.  Nothing is assumed here about majorities, nor about how votes are counted.
-/

set_option autoImplicit false

namespace DistLabs

variable {n : Nat} {Cmd : Type}

/-- The reply of this RPC grants candidate `c` the callee's vote in term `T`. -/
def Rpc.Grants (c : Fin n) (T : Int) : Rpc n Cmd → Prop
  | .vote _ args (some reply) => reply.voteGranted = true ∧ args.candidateId = c ∧ args.term = T
  | _ => False

instance (c : Fin n) (T : Int) : (rpc : Rpc n Cmd) → Decidable (rpc.Grants c T)
  | .vote _ _ (some _) => inferInstanceAs (Decidable (_ ∧ _ ∧ _))
  | .vote _ _ none => isFalse id
  | .append _ _ _ => isFalse id
  | .install _ _ _ => isFalse id

namespace Cluster

/-- Who became a candidate, and in which term. -/
def candidacies (hist : List (Event n Cmd)) : List (Fin n × Int) :=
  hist.filterMap fun
    | .candidate a T => some (a, T)
    | _ => none

theorem mem_candidacies {hist : List (Event n Cmd)} {a : Fin n} {T : Int} :
    (a, T) ∈ candidacies hist ↔ .candidate a T ∈ hist := by
  rw [candidacies, List.mem_filterMap]
  constructor
  · rintro ⟨e, he, heq⟩
    cases e <;> simp at heq
    rwa [← heq.1, ← heq.2]
  · exact fun h ↦ ⟨_, h, rfl⟩

instance (hist : List (Event n Cmd)) (a : Fin n) (T : Int) : Decidable (.candidate a T ∈ hist) :=
  decidable_of_iff _ mem_candidacies

/-- `v` voted for `c` in term `T`, or is `c` and became a candidate in `T`. -/
def Voted (σ : Cluster n Cmd) (v c : Fin n) (T : Int) : Prop :=
  (v = c ∧ .candidate c T ∈ σ.hist) ∨ ∃ call ∈ σ.calls, call.callee = v ∧ call.rpc.Grants c T

instance (σ : Cluster n Cmd) (v c : Fin n) (T : Int) : Decidable (σ.Voted v c T) :=
  inferInstanceAs (Decidable (_ ∨ _))

variable [Labgob (Saved n Cmd)]

/-- A call that is being answered has granted nothing yet. -/
theorem Replies.not_grants {σ σ' : Cluster n Cmd} {call : Call n Cmd} {rpc : Rpc n Cmd}
    (h : Replies σ σ' call rpc) (c : Fin n) (T : Int) : ¬ call.rpc.Grants c T := by
  intro hg
  cases h with
  | vote hr | append hr | install hr => rw [hr] at hg; exact hg

theorem Trans.voted_mono {σ σ' : Cluster n Cmd} {act : Action n Cmd} (h : Trans σ act σ')
    {v c : Fin n} {T : Int} (hv : σ.Voted v c T) : σ'.Voted v c T := by
  rcases hv with ⟨rfl, hcand⟩ | ⟨call, hmem, rfl, hg⟩
  · exact Or.inl ⟨rfl, h.hist_subset hcand⟩
  · obtain ⟨i, hi⟩ := List.mem_iff_getElem?.mp hmem
    obtain ⟨call', hi', -, hcallee, -, hrpc | hrep⟩ := h.call_mono hi
    · exact Or.inr ⟨call', List.mem_of_getElem? hi', hcallee, hrpc ▸ hg⟩
    · exact absurd hg (hrep.not_grants c T)

/-- **A new vote is in the voter's current term, for whom it has in `votedFor`.** -/
theorem Trans.voted_cases {σ σ' : Cluster n Cmd} {act : Action n Cmd} (h : Trans σ act σ')
    (hσ : σ.AtRest) {v c : Fin n} {T : Int} (hv : σ'.Voted v c T) :
    σ.Voted v c T ∨
      (σ'.node v).rf.currentTerm = T ∧ (σ'.node v).rf.votedFor = some c := by
  rcases hv with ⟨rfl, hcand⟩ | ⟨call', hmem, rfl, hg⟩
  · rcases h.mem_hist hcand with hold | hnew
    · exact Or.inl (Or.inl ⟨rfl, hold⟩)
    · cases hnew with
      | candidate hs hrf =>
        rw [hrf]
        exact Or.inr ⟨rfl, congrArg some (hσ v).1⟩
  · obtain ⟨i, hi⟩ := List.mem_iff_getElem?.mp hmem
    rcases h.call_cases hi with ⟨call, hc, hkeep⟩ | ⟨-, hreq, -⟩ |
      ⟨call, -, hc, hrep, -, hcallee, -⟩
    · refine Or.inl (Or.inr ⟨call, List.mem_of_getElem? hc, hkeep.callee.symm, ?_⟩)
      rwa [hkeep.rpc] at hg
    · cases hreq <;> exact hg.elim
    · have hd := hrep.from_disk hσ
      rw [hcallee]
      generalize call'.rpc = rpc at hg hrep hd
      cases hrep with
      | vote hr _ =>
        obtain ⟨hgr, rfl, rfl⟩ := hg
        obtain ⟨hterm, hvote⟩ := hd.2 hgr
        exact Or.inr ⟨hterm.symm, hvote⟩
      | append | install => exact hg.elim

/-- What the votes cast so far say about their voters. -/
structure VoteInv (σ : Cluster n Cmd) : Prop where
  /-- A voter has reached the term, and stands by its vote while it stays there. -/
  stands : ∀ v c T, σ.Voted v c T → T ≤ (σ.node v).rf.currentTerm ∧
    ((σ.node v).rf.currentTerm = T → (σ.node v).rf.votedFor = some c)
  /-- Nobody votes for two in one term. -/
  unique : ∀ v c c' T, σ.Voted v c T → σ.Voted v c' T → c = c'

theorem VoteInv.step {σ σ' : Cluster n Cmd} {act : Action n Cmd} (h : Trans σ act σ')
    (hσ : σ.AtRest) (hi : σ.VoteInv) : σ'.VoteInv := by
  have hstands : ∀ v c T, σ'.Voted v c T → T ≤ (σ'.node v).rf.currentTerm ∧
      ((σ'.node v).rf.currentTerm = T → (σ'.node v).rf.votedFor = some c) := by
    intro v c T hv
    rcases h.voted_cases hσ hv with hold | ⟨hterm, hvote⟩
    · have he := h.evolves hσ v
      have hle := (hi.stands v c T hold).1
      have hmono := he.term
      refine ⟨by omega, fun heq ↦ ?_⟩
      exact he.vote (by omega) c ((hi.stands v c T hold).2 (by omega))
    · exact ⟨hterm.ge, fun _ ↦ hvote⟩
  refine ⟨hstands, fun v c c' T hv hv' ↦ ?_⟩
  -- as soon as one of the two votes is new, `votedFor` decides
  have hnow : (σ'.node v).rf.currentTerm = T → c = c' := fun hterm ↦ by
    have h1 := (hstands v c T hv).2 hterm
    rw [(hstands v c' T hv').2 hterm, Option.some_inj] at h1
    exact h1.symm
  rcases h.voted_cases hσ hv with hold | ⟨hterm, -⟩
  · rcases h.voted_cases hσ hv' with hold' | ⟨hterm, -⟩
    · exact hi.unique v c c' T hold hold'
    · exact hnow hterm
  · exact hnow hterm

theorem voteInv_of_reach {P : Cluster n Cmd → Action n Cmd → Cluster n Cmd → Prop}
    {σ : Cluster n Cmd} (h : (machine n Cmd).Reach P σ) : σ.VoteInv := by
  refine h.invariant (I := VoteInv) ?_ fun σ act σ' hr hi hs _ ↦
    hi.step (Trans.of_step hs) (atRest_of_reach hr)
  have hnone : ∀ v c T, ¬ (init : Cluster n Cmd).Voted v c T := by
    intro v c T hv
    rcases hv with ⟨-, hmem⟩ | ⟨call, hmem, -⟩ <;> simp [init] at hmem
  exact ⟨fun v c T hv ↦ absurd hv (hnone v c T), fun v c c' T hv ↦ absurd hv (hnone v c T)⟩

/-- **One vote per server and term, across crashes.**  All candidates a server ever granted its vote
in a term, and itself if it was a candidate in it, are one and the same; and along every run its
term never goes back. -/
theorem one_vote_per_term {σ : Cluster n Cmd}
    (h : (machine n Cmd).Reach (fun _ _ _ ↦ True) σ) :
    (∀ v c c' T, σ.Voted v c T → σ.Voted v c' T → c = c') ∧
    ∀ σ', (machine n Cmd).Leads σ σ' →
      ∀ v, (σ.node v).rf.currentTerm ≤ (σ'.node v).rf.currentTerm := by
  refine ⟨(voteInv_of_reach h).unique, fun σ' hl v ↦ ?_⟩
  refine hl.monotone (f := fun τ ↦ (τ.node v).rf.currentTerm) (fun τ act τ' hτ hs ↦ ?_) h
  exact ((Trans.of_step hs).evolves (atRest_of_reach hτ) v).term

theorem one_vote_per_term_firstElection :
    ∃ σ : Cluster 3 Nat, (machine 3 Nat).Reach (fun _ _ _ ↦ True) σ ∧
      (σ.Voted 0 0 1 ∧ σ.Voted 1 0 1) ∧ ∀ c, σ.Voted 1 c 1 → c = 0 := by
  obtain ⟨σ, hσ, hQ⟩ := Machine.exists_reach_of_exec (M := machine 3 Nat) (P := fun _ _ _ ↦ True)
    (Q := fun σ ↦ σ.Voted 0 0 1 ∧ σ.Voted 1 0 1) firstElection (by decide +kernel)
  exact ⟨σ, hσ, hQ, fun c hc ↦ (one_vote_per_term hσ).1 1 c 0 1 hc hQ.2⟩

end Cluster

end DistLabs
