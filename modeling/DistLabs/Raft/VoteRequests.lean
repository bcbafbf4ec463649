import DistLabs.Raft.Elections

/-!
# What a vote request says about its sender

`collectOpinion` starts one goroutine for each peer, and each of them builds its request when it
gets the lock.  By then the server may have moved on: to a later term, as a follower of somebody
else, or as a candidate again.  The request is built all the same, with whatever term the server is
in (`follower_asks`).

If a server stays what it is until all goroutines of its `collectOpinion` have built their requests,
the requests are what one expects (`vote_requests_truthful`): built by a candidate of that term, and
all in the term of the candidacy that started the goroutines.  The `r`-th run of `collectOpinion`
belongs to the `r`-th candidacy on record; `AskInv` carries that along.
-/

set_option autoImplicit false

namespace DistLabs

variable {n : Nat} {Cmd : Type}

namespace Cluster

/-- On the way from `σ` to `σ'` no server changes its term or its state while a goroutine of one of
its runs of `collectOpinion` still has to build its request. -/
def StaysWhileAsking (σ σ' : Cluster n Cmd) : Prop :=
  ∀ op ∈ σ'.opinions.take σ.opinions.length, op.pending ≠ [] →
    (σ'.node op.server).rf.currentTerm = (σ.node op.server).rf.currentTerm ∧
    (σ'.node op.server).rf.state = (σ.node op.server).rf.state

instance (σ σ' : Cluster n Cmd) : Decidable (σ.StaysWhileAsking σ') :=
  inferInstanceAs (Decidable (∀ _ ∈ _, _))

variable [Labgob (Saved n Cmd)] {σ σ' : Cluster n Cmd} {act : Action n Cmd}

/-- **Candidacies and runs of `collectOpinion`** come in pairs. -/
theorem Trans.candidacy_cases (h : Trans σ act σ') :
    (candidacies σ'.hist = candidacies σ.hist ∧ σ'.opinions.length = σ.opinions.length) ∨
    ∃ a, candidacies σ'.hist = candidacies σ.hist ++ [(a, (σ'.node a).rf.currentTerm)] ∧
      σ'.opinions = σ.opinions ++ [⟨a, 1, peers a⟩] ∧
      (σ'.node a).rf = (σ.node a).rf.becomeCandidate := by
  cases h with
  | @tick a hs =>
    refine Or.inr ⟨a, ?_, rfl, ?_⟩
    · simp [candidacies, Raft.becomeCandidate, Raft.persist]
    · simp
  | answerAppend =>
    refine Or.inl ⟨?_, rfl⟩
    rw [candidacies, List.filterMap_append]
    split <;> simp [candidacies]
  | restart => exact Or.inl ⟨by simp [candidacies], by simp⟩
  | _ => exact Or.inl ⟨by simp [candidacies, setRf, setNode], by simp [setRf, setNode]⟩

/-- What the goroutines of `collectOpinion` rely on. -/
structure AskInv (σ : Cluster n Cmd) : Prop where
  /-- As many candidacies as runs of `collectOpinion`. -/
  length : (candidacies σ.hist).length = σ.opinions.length
  /-- A run belongs to the server of its candidacy, which is still what it was if a goroutine has
  yet to ask. -/
  asking : ∀ (r : Nat) (op : Opinion n), σ.opinions[r]? = some op →
    ∃ T, (candidacies σ.hist)[r]? = some (op.server, T) ∧ (op.pending ≠ [] →
      (σ.node op.server).rf.currentTerm = T ∧ (σ.node op.server).rf.state = .candidate ∧
      (σ.node op.server).rf.votedFor = some op.server)
  /-- Requests carry the term of the candidacy. -/
  asked : ∀ c call r args, σ.Asks c call r args →
    (candidacies σ.hist)[r]? = some (call.caller, args.term)

namespace AskInv

theorem mono (h : Trans σ act σ') {r : Nat} {x : Fin n × Int}
    (hx : (candidacies σ.hist)[r]? = some x) : (candidacies σ'.hist)[r]? = some x := by
  rcases h.candidacy_cases with ⟨heq, -⟩ | ⟨a, heq, -⟩
  · rw [heq, hx]
  · rw [heq, List.getElem?_append_left (List.getElem?_eq_some_iff.mp hx).1, hx]

theorem length_step (h : Trans σ act σ') (hi : σ.AskInv) :
    (candidacies σ'.hist).length = σ'.opinions.length := by
  have hlen := hi.length
  rcases h.candidacy_cases with ⟨heq, hop⟩ | ⟨a, heq, hop, -⟩
  · rw [heq, hop, hlen]
  · rw [heq, hop, List.length_append, List.length_append, hlen]
    rfl

theorem asking_step (h : Trans σ act σ') (hσ : σ.AtRest) (hstay : σ.StaysWhileAsking σ')
    (hi : σ.AskInv)
    (r : Nat) (op' : Opinion n) (hop' : σ'.opinions[r]? = some op') :
    ∃ T, (candidacies σ'.hist)[r]? = some (op'.server, T) ∧ (op'.pending ≠ [] →
      (σ'.node op'.server).rf.currentTerm = T ∧ (σ'.node op'.server).rf.state = .candidate ∧
      (σ'.node op'.server).rf.votedFor = some op'.server) := by
  rcases Nat.lt_or_ge r σ.opinions.length with hlt | hge
  · -- an old run, whose server stays what it is
    obtain ⟨op'', hop'', hserver, hpend⟩ := h.opinion_mono (List.getElem?_eq_getElem hlt)
    obtain rfl := Option.some_inj.mp (hop'.symm.trans hop'')
    obtain ⟨T, hT, hcand⟩ := hi.asking r _ (List.getElem?_eq_getElem hlt)
    rw [← hserver] at hT hcand
    refine ⟨T, mono h hT, fun hne ↦ ?_⟩
    have hmem : op' ∈ σ'.opinions.take σ.opinions.length := by
      refine List.mem_of_getElem? (i := r) ?_
      rw [List.getElem?_take_of_lt hlt, hop']
    obtain ⟨hterm, hstate⟩ := hstay op' hmem hne
    obtain ⟨h1, h2, h3⟩ := hcand fun hnil ↦ hne (List.sublist_nil.mp (hnil ▸ hpend))
    exact ⟨hterm.trans h1, hstate.trans h2, (h.evolves hσ op'.server).vote hterm _ h3⟩
  · -- a run that begins now
    have hr := (List.getElem?_eq_some_iff.mp hop').1
    rcases h.candidacy_cases with ⟨-, hlen⟩ | ⟨a, heq, hop, hrf⟩
    · omega
    rw [hop] at hop' hr
    rw [List.length_append, List.length_singleton] at hr
    obtain rfl : r = σ.opinions.length := by omega
    rw [List.getElem?_concat_length, Option.some_inj] at hop'
    subst hop'
    refine ⟨_, by rw [heq, ← hi.length, List.getElem?_concat_length], fun _ ↦ ⟨rfl, ?_, ?_⟩⟩
    · rw [hrf]; rfl
    · rw [hrf]
      exact congrArg some (hσ a).1

theorem step (h : Trans σ act σ') (hσ : σ.AtRest) (hstay : σ.StaysWhileAsking σ') (hi : σ.AskInv) :
    σ'.AskInv := by
  refine ⟨hi.length_step h, hi.asking_step h hσ hstay, fun c call r args hc ↦ mono h ?_⟩
  rcases h.asks_cases hc with ⟨call₀, hc₀, hcaller, -⟩ | ⟨-, op, hop, hmem, -, hcaller, hargs⟩
  · rw [hcaller]
    exact hi.asked c call₀ r args hc₀
  · -- the request is built now, by a server that is still the candidate it was
    obtain ⟨T, hT, hcand⟩ := hi.asking r op hop
    obtain ⟨last, -, rfl⟩ := Raft.requestVoteArgs_spec hargs
    rw [hcaller, hT, ← (hcand (List.ne_nil_of_mem hmem)).1]

end AskInv

/-- **Vote requests are truthful**, in runs in which no server changes its term or its state while a
goroutine of its `collectOpinion` still has to build its request: every vote request is built by a
server that is a candidate in the term of the request, and so has voted for itself; and all requests
of the `r`-th run of `collectOpinion` carry the term of the `r`-th candidacy, which started it. -/
theorem vote_requests_truthful
    (h : (machine n Cmd).Reach (fun σ _ σ' ↦ σ.StaysWhileAsking σ') σ) :
    (∀ r j σ', σ.step (.askVote r j) = some σ' → ∃ c args,
      σ'.calls = σ.calls ++ [⟨c, j, .vote r args none, true⟩] ∧ args.candidateId = c ∧
      (σ.node c).rf.state = .candidate ∧ (σ.node c).rf.currentTerm = args.term ∧
      (σ.node c).rf.votedFor = some c) ∧
    ∀ call ∈ σ.calls, ∀ r args reply, call.rpc = .vote r args reply →
      (candidacies σ.hist)[r]? = some (call.caller, args.term) := by
  have hi : σ.AskInv := by
    refine h.invariant (I := AskInv) ?_ fun σ act σ' hr hi hs hp ↦
      hi.step (Trans.of_step hs) (atRest_of_reach hr) hp
    constructor <;> simp [machine, init, candidacies, Asks]
  refine ⟨fun r j σ' hs ↦ ?_, fun call hmem r args reply hr ↦ ?_⟩
  · cases Trans.of_step hs with
    | @askVote _ _ op args hop hj hargs =>
      obtain ⟨T, -, hcand⟩ := hi.asking r op hop
      obtain ⟨h1, h2, h3⟩ := hcand (List.ne_nil_of_mem hj)
      obtain ⟨last, -, rfl⟩ := Raft.requestVoteArgs_spec hargs
      exact ⟨op.server, _, rfl, (atRest_of_reach h op.server).1, h2, rfl, h3⟩
  · obtain ⟨c, hc⟩ := List.mem_iff_getElem?.mp hmem
    exact hi.asked c call r args ⟨hc, reply, hr⟩

/-- Server `1` becomes a candidate after all requests of server `0` are built. -/
def oneAfterTheOther : List (Action 3 Nat) :=
  [.tick 0, .askVote 0 1, .askVote 0 2, .deliver 0, .tick 1, .askVote 1 0]

theorem vote_requests_truthful_oneAfterTheOther :
    ∃ σ σ' : Cluster 3 Nat, (machine 3 Nat).Reach (fun σ _ σ' ↦ σ.StaysWhileAsking σ') σ ∧
      σ.step (.askVote 1 2) = some σ' ∧
      (∃ c args, σ'.calls = σ.calls ++ [⟨c, 2, .vote 1 args none, true⟩] ∧ args.candidateId = c ∧
        (σ.node c).rf.state = .candidate ∧ (σ.node c).rf.currentTerm = args.term ∧
        (σ.node c).rf.votedFor = some c) ∧
      (candidacies σ.hist)[0]? = some (0, 1) := by
  obtain ⟨σ, hσ, hcall, σ', hs, -⟩ :=
    Machine.exists_reach_of_exec (M := machine 3 Nat) (P := fun σ _ σ' ↦ σ.StaysWhileAsking σ')
    (Q := fun σ ↦ ⟨0, 1, .vote 0 ⟨1, 0, 0, -1⟩ (some ⟨1, true⟩), true⟩ ∈ σ.calls ∧
      ∃ σ' ∈ σ.step (.askVote 1 2), σ'.calls.length = 4)
    oneAfterTheOther (by decide +kernel)
  obtain ⟨hask, hterm⟩ := vote_requests_truthful hσ
  exact ⟨σ, σ', hσ, hs, hask 1 2 σ' hs, hterm _ hcall 0 _ _ rfl⟩

/-- Server `0` becomes a candidate in term `1`.  Before its goroutines get the lock, server `1`
times out twice, and its vote request of term `2` reaches server `0`. -/
def staleGoroutines : List (Action 3 Nat) := [.tick 0, .tick 1, .tick 1, .askVote 2 0, .deliver 0]

/-- **A follower asks for votes**: server `0` has voted for server `1` in term `2`, and its
goroutine for server `2` builds a request of term `2`, for itself. -/
theorem follower_asks :
    ∃ σ σ' : Cluster 3 Nat, (machine 3 Nat).Reach (fun _ _ _ ↦ True) σ ∧
      σ.step (.askVote 0 2) = some σ' ∧ (σ.node 0).rf.state = .follower ∧
      (σ.node 0).rf.votedFor = some 1 ∧ (candidacies σ.hist)[0]? = some (0, 1) ∧
      σ'.calls[1]? = some ⟨0, 2, .vote 0 ⟨2, 0, 0, -1⟩ none, true⟩ := by
  obtain ⟨σ, hσ, hst, hv, hc, σ', hs, hcall⟩ :=
    Machine.exists_reach_of_exec (M := machine 3 Nat) (P := fun _ _ _ ↦ True)
    (Q := fun σ ↦ (σ.node 0).rf.state = .follower ∧ (σ.node 0).rf.votedFor = some 1 ∧
      (candidacies σ.hist)[0]? = some (0, 1) ∧ ∃ σ' ∈ σ.step (.askVote 0 2),
        σ'.calls[1]? = some ⟨0, 2, .vote 0 ⟨2, 0, 0, -1⟩ none, true⟩)
    staleGoroutines (by decide +kernel)
  exact ⟨σ, σ', hσ, hs, hst, hv, hc, hcall⟩

end Cluster

end DistLabs
