import DistLabs.Raft.Roles

/-!
# Elections

A `collectOpinion` owns a counter, and each of its goroutines may add one vote to it.  No two of
them ask the same server and none asks its own, so the counter is one more than the number of
servers whose votes were counted (`PollInv`).

But a goroutine reads the term it asks for only when it gets the lock.  If its server has started
another election by then, the vote it brings home is one for *that* term, and it is added to the
old counter all the same.  With four servers two candidates can so win the same term: see
`two_leaders_in_one_term`.  As long as no counter mixes terms, or there are at most three servers —
where one vote besides the candidate's own decides — every election is won by a majority
(`majorityBacked_of_reach`), and a term has one leader (`election_safety`).
-/

set_option autoImplicit false

namespace DistLabs

variable {n : Nat} {Cmd : Type}

namespace Cluster

/-! ## Definitions -/

/-- Every vote that was counted: for which opinion, whose it was, and in which term. -/
def counts (hist : List (Event n Cmd)) : List (Nat × Fin n × Int) :=
  hist.filterMap fun
    | .counted r v T => some (r, v, T)
    | _ => none

/-- The votes opinion `r` has counted so far. -/
def tally (hist : List (Event n Cmd)) (r : Nat) : List (Fin n × Int) :=
  ((counts hist).filter fun x ↦ x.1 = r).map Prod.snd

/-- Who called `becomeLeader`, and in which term. -/
def elections (hist : List (Event n Cmd)) : List (Fin n × Int) :=
  hist.filterMap fun
    | .elected a T => some (a, T)
    | _ => none

/-- The servers that voted for `a` in `T`, itself included. -/
def voters (σ : Cluster n Cmd) (a : Fin n) (T : Int) : Finset (Fin n) :=
  Finset.univ.filter fun v ↦ σ.Voted v a T

/-- Every election so far was won by a strict majority of votes. -/
def MajorityBacked (σ : Cluster n Cmd) : Prop :=
  ∀ a T, .elected a T ∈ σ.hist → Majority (σ.voters a T)

/-- Opinions have counted only votes of one term each. -/
def OneTermEach (σ : Cluster n Cmd) : Prop :=
  ∀ r v v' T T', .counted r v T ∈ σ.hist → .counted r v' T' ∈ σ.hist → T = T'

theorem mem_counts {hist : List (Event n Cmd)} {r : Nat} {v : Fin n} {T : Int} :
    (r, v, T) ∈ counts hist ↔ .counted r v T ∈ hist := by
  rw [counts, List.mem_filterMap]
  constructor
  · rintro ⟨e, he, heq⟩
    cases e <;> simp at heq
    obtain ⟨rfl, rfl, rfl⟩ := heq
    exact he
  · exact fun h ↦ ⟨_, h, rfl⟩

theorem mem_tally {hist : List (Event n Cmd)} {r : Nat} {v : Fin n} {T : Int} :
    (v, T) ∈ tally hist r ↔ .counted r v T ∈ hist := by
  rw [← mem_counts, tally, List.mem_map]
  constructor
  · rintro ⟨⟨r', v', T'⟩, hx, heq⟩
    obtain ⟨rfl, rfl⟩ := Prod.mk.injEq .. ▸ heq
    rw [List.mem_filter] at hx
    obtain rfl : r' = r := of_decide_eq_true hx.2
    exact hx.1
  · exact fun h ↦ ⟨_, List.mem_filter.mpr ⟨h, by simp⟩, rfl⟩

theorem tally_append (hist evs : List (Event n Cmd)) (r : Nat) :
    tally (hist ++ evs) r = tally hist r ++ tally evs r := by
  simp [tally, counts]

theorem mem_elections {hist : List (Event n Cmd)} {a : Fin n} {T : Int} :
    (a, T) ∈ elections hist ↔ .elected a T ∈ hist := by
  rw [elections, List.mem_filterMap]
  constructor
  · rintro ⟨e, he, heq⟩
    cases e <;> simp at heq
    rwa [← heq.1, ← heq.2]
  · exact fun h ↦ ⟨_, h, rfl⟩

theorem mem_voters {σ : Cluster n Cmd} {v a : Fin n} {T : Int} :
    v ∈ σ.voters a T ↔ σ.Voted v a T := by
  simp [voters]

instance (σ : Cluster n Cmd) : Decidable σ.MajorityBacked :=
  decidable_of_iff (∀ p ∈ elections σ.hist, Majority (σ.voters p.1 p.2))
    ⟨fun h a T hT ↦ h (a, T) (mem_elections.mpr hT), fun h p hp ↦ h p.1 p.2 (mem_elections.mp hp)⟩

variable [Labgob (Saved n Cmd)]

/-- If this is the reply to a vote request and `caller` would count it now, then the votes its
opinion has counted before are of the same term. -/
def SameTerm (σ : Cluster n Cmd) (caller : Fin n) : Rpc n Cmd → Prop
  | .vote r args (some reply) =>
    (σ.node caller).rf.countsVote args reply → ∀ x ∈ tally σ.hist r, x.2 = args.term
  | _ => True

/-- If the action counts a vote, then those its opinion has counted before are of the same term. -/
def CountsOneTerm (σ : Cluster n Cmd) : Action n Cmd → Prop
  | .answer c => ∀ call ∈ σ.calls[c]?, σ.SameTerm call.caller call.rpc
  | _ => True

instance (σ : Cluster n Cmd) (caller : Fin n) :
    (rpc : Rpc n Cmd) → Decidable (σ.SameTerm caller rpc)
  | .vote _ _ (some _) => inferInstanceAs (Decidable (_ → ∀ _ ∈ _, _))
  | .vote _ _ none | .append _ _ _ | .install _ _ _ => isTrue trivial

instance (σ : Cluster n Cmd) : (act : Action n Cmd) → Decidable (σ.CountsOneTerm act)
  | .answer _ => inferInstanceAs (Decidable (∀ _ ∈ _, _))
  | .tick _ | .askVote _ _ | .replicate _ | .deliver _ | .lose _ | .start _ _ | .snapshot _ _ _
  | .wake _ | .collect _ | .send _ | .sendSnap _ _ | .restart _ => isTrue trivial

/-! ## What happens to an opinion -/

/-- **Where an opinion comes from.**  It was there before, with the same counter and the same
votes counted; or it has just been opened; or a vote has just been added to it. -/
theorem Trans.opinion_cases {σ σ' : Cluster n Cmd} {act : Action n Cmd} (h : Trans σ act σ')
    {r : Nat} {op' : Opinion n} (hop' : σ'.opinions[r]? = some op') :
    (∃ op, σ.opinions[r]? = some op ∧ op'.server = op.server ∧ op'.pending.Sublist op.pending ∧
      op'.supporter = op.supporter ∧ tally σ'.hist r = tally σ.hist r) ∨
    (∃ a, r = σ.opinions.length ∧ op' = ⟨a, 1, peers a⟩ ∧ tally σ'.hist r = tally σ.hist r) ∨
    ∃ c call args reply op, act = .answer c ∧ σ.calls[c]? = some call ∧ call.waiting = true ∧
      call.rpc = .vote r args (some reply) ∧ σ.opinions[r]? = some op ∧
      (σ.node call.caller).rf.countsVote args reply ∧
      op' = { op with supporter := op.supporter + 1 } ∧
      tally σ'.hist r = tally σ.hist r ++ [(call.callee, args.term)] ∧
      σ'.calls = σ.calls.set c { call with waiting := false } := by
  have hsame : σ.opinions[r]? = some op' → tally σ'.hist r = tally σ.hist r →
      ∃ op, σ.opinions[r]? = some op ∧ op'.server = op.server ∧ op'.pending.Sublist op.pending ∧
        op'.supporter = op.supporter ∧ tally σ'.hist r = tally σ.hist r :=
    fun ho ht ↦ ⟨op', ho, rfl, List.Sublist.refl _, rfl, ht⟩
  cases h with
  | @tick a hs =>
    have ht : tally (σ.hist ++ [.candidate a ((σ.node a).rf.currentTerm + 1)]) r =
        tally σ.hist r := by simp [tally, counts]
    rcases List.getElem?_concat_cases hop' with hold | ⟨rfl, rfl⟩
    · exact Or.inl (hsame hold ht)
    · exact Or.inr (Or.inl ⟨a, rfl, rfl, ht⟩)
  | @askVote r' j op args hop hj ha =>
    rcases List.getElem?_set_cases hop' with ⟨rfl, rfl⟩ | ⟨-, hold⟩
    · exact Or.inl ⟨op, hop, rfl, List.erase_sublist, rfl, rfl⟩
    · exact Or.inl (hsame hold rfl)
  | @answerVote c r' call args reply op hc hw hrpc hop hn =>
    rcases List.getElem?_set_cases hop' with ⟨rfl, rfl⟩ | ⟨-, hold⟩
    · exact Or.inl (hsame hop rfl)
    · exact Or.inl (hsame hold rfl)
  | @countVote c r' call args reply op hc hw hrpc hop hv hfew =>
    rcases List.getElem?_set_cases hop' with ⟨rfl, rfl⟩ | ⟨hne, hold⟩
    · refine Or.inr (Or.inr ⟨c, call, args, reply, op, rfl, hc, hw, hrpc, hop, hv, rfl, ?_, rfl⟩)
      simp [tally, counts]
    · exact Or.inl (hsame hold (by simp [tally, counts, hne]))
  | @elect c r' call args reply op hc hw hrpc hop hv hmany =>
    rcases List.getElem?_set_cases hop' with ⟨rfl, rfl⟩ | ⟨hne, hold⟩
    · refine Or.inr (Or.inr ⟨c, call, args, reply, op, rfl, hc, hw, hrpc, hop, hv, rfl, ?_, rfl⟩)
      simp [tally, counts]
    · exact Or.inl (hsame hold (by simp [tally, counts, hne]))
  | @restart a rf hmake =>
    change (σ.opinions.map _)[r]? = _ at hop'
    rw [List.getElem?_map, Option.map_eq_some_iff] at hop'
    obtain ⟨op, hop, rfl⟩ := hop'
    refine Or.inl ⟨op, hop, ?_⟩
    have ht : tally (σ.hist ++ [.restarted a]) r = tally σ.hist r := by simp [tally, counts]
    split
    · exact ⟨rfl, List.nil_sublist _, rfl, ht⟩
    · exact ⟨rfl, List.Sublist.refl _, rfl, ht⟩
  | answerAppend =>
    refine Or.inl (hsame hop' ?_)
    rw [tally_append]
    split <;> simp [tally, counts]
  | replicateIdle | replicateAppend | replicateInstall | deliverVote | deliverAppend
  | deliverInstall | answerInstall | lose | startRefused | snapshotOld | wake
  | collect => exact Or.inl (hsame hop' rfl)
  | start | snapshot | send | sendSnap =>
    exact Or.inl (hsame hop' (by simp [tally, counts]))

theorem Trans.opinions_length {σ σ' : Cluster n Cmd} {act : Action n Cmd} (h : Trans σ act σ') :
    σ.opinions.length ≤ σ'.opinions.length := by
  cases h <;> simp [setRf, setNode]

/-- **Opinions stay**, with their server, and ask nobody anew. -/
theorem Trans.opinion_mono {σ σ' : Cluster n Cmd} {act : Action n Cmd} (h : Trans σ act σ')
    {r : Nat} {op : Opinion n} (hop : σ.opinions[r]? = some op) :
    ∃ op', σ'.opinions[r]? = some op' ∧ op'.server = op.server ∧
      op'.pending.Sublist op.pending := by
  have hlt := (List.getElem?_eq_some_iff.mp hop).1
  have hop' := List.getElem?_eq_getElem (hlt.trans_le h.opinions_length)
  refine ⟨_, hop', ?_⟩
  rcases h.opinion_cases hop' with ⟨op₀, hop₀, hs, hp, -⟩ | ⟨a, rfl, -⟩ |
    ⟨c, call, args, reply, op₀, -, -, -, -, hop₀, -, heq, -⟩
  · obtain rfl := Option.some_inj.mp (hop.symm.trans hop₀)
    exact ⟨hs, hp⟩
  · omega
  · obtain rfl := Option.some_inj.mp (hop.symm.trans hop₀)
    rw [heq]
    exact ⟨rfl, List.Sublist.refl _⟩

/-- Call number `c` is a vote request of opinion `r`. -/
def Asks (σ : Cluster n Cmd) (c : Nat) (call : Call n Cmd) (r : Nat) (args : RequestVoteArgs n) :
    Prop :=
  σ.calls[c]? = some call ∧ ∃ reply, call.rpc = .vote r args reply

/-- **Where a vote request comes from**: it was sent before, or one of the goroutines of its opinion
sends it now. -/
theorem Trans.asks_cases {σ σ' : Cluster n Cmd} {act : Action n Cmd} (h : Trans σ act σ')
    {c r : Nat} {call' : Call n Cmd} {args : RequestVoteArgs n} (hc' : σ'.Asks c call' r args) :
    (∃ call, σ.Asks c call r args ∧ call'.caller = call.caller ∧ call'.callee = call.callee ∧
      (call'.waiting = true → call.waiting = true)) ∨
    (c = σ.calls.length ∧ ∃ op, σ.opinions[r]? = some op ∧ call'.callee ∈ op.pending ∧
      σ'.opinions[r]? = some { op with pending := op.pending.erase call'.callee } ∧
      call'.caller = op.server ∧ (σ.node op.server).rf.requestVoteArgs = some args) := by
  obtain ⟨hc', reply, hr⟩ := hc'
  rcases h.call_cases hc' with ⟨call, hc, hk⟩ | ⟨rfl, hreq, -⟩ | ⟨call, -, hc, hrep, h1, h2, h3⟩
  · exact Or.inl ⟨call, ⟨hc, reply, hk.rpc ▸ hr⟩, hk.caller, hk.callee, hk.waiting⟩
  · cases hreq with
    | vote hop hj hop' ha =>
      obtain ⟨rfl, rfl, -⟩ := Rpc.vote.injEq .. ▸ hr
      exact Or.inr ⟨rfl, _, hop, hj, hop', rfl, ha⟩
    | append | install => simp at hr
  · rw [hr] at hrep
    cases hrep with
    | vote hr₀ _ => exact Or.inl ⟨call, ⟨hc, none, hr₀⟩, h1, h2, fun hw ↦ h3 ▸ hw⟩

/-! ## Counting -/

/-- What the counters are worth. -/
structure PollInv (σ : Cluster n Cmd) : Prop where
  /-- An opinion will ask each server at most once, and not its own. -/
  pending : ∀ (r : Nat) (op : Opinion n), σ.opinions[r]? = some op →
    op.pending.Nodup ∧ op.server ∉ op.pending
  /-- A vote request is sent by the server of its opinion, for itself, to a server it will not ask
  again. -/
  asked : ∀ c call r args, σ.Asks c call r args →
    args.candidateId = call.caller ∧ call.callee ≠ call.caller ∧
    ∃ op, σ.opinions[r]? = some op ∧ op.server = call.caller ∧ call.callee ∉ op.pending
  /-- Nobody is asked twice. -/
  once : ∀ c c' call call' r args args', σ.Asks c call r args → σ.Asks c' call' r args' →
    call.callee = call'.callee → c = c'
  /-- The counter is one more than the number of votes counted. -/
  supporter : ∀ (r : Nat) (op : Opinion n), σ.opinions[r]? = some op →
    op.supporter = (tally σ.hist r).length + 1
  /-- They are votes of different servers. -/
  distinct : ∀ r, ((tally σ.hist r).map Prod.fst).Nodup
  /-- A vote that is still waited for has not been counted. -/
  waiting : ∀ c call r args, σ.Asks c call r args → call.waiting = true →
    call.callee ∉ (tally σ.hist r).map Prod.fst
  /-- A vote that was counted had been asked for and granted. -/
  counted : ∀ r v T, .counted r v T ∈ σ.hist → ∃ (c : Nat) (call : Call n Cmd) (args : _)
    (reply : RequestVoteReply), σ.calls[c]? = some call ∧ call.rpc = .vote r args (some reply) ∧
      call.callee = v ∧ args.term = T ∧ reply.voteGranted = true

namespace PollInv

variable {σ σ' : Cluster n Cmd} {act : Action n Cmd}

theorem pending_step (h : Trans σ act σ') (hi : σ.PollInv) (r : Nat) (op' : Opinion n)
    (hop' : σ'.opinions[r]? = some op') : op'.pending.Nodup ∧ op'.server ∉ op'.pending := by
  rcases h.opinion_cases hop' with ⟨op, hop, hs, hp, -⟩ | ⟨a, -, rfl, -⟩ |
    ⟨c, call, args, reply, op, -, -, -, -, hop, -, rfl, -⟩
  · obtain ⟨h1, h2⟩ := hi.pending r op hop
    exact ⟨h1.sublist hp, fun hmem ↦ h2 (hs ▸ hp.subset hmem)⟩
  · exact ⟨(List.nodup_finRange n).filter _, by simp [peers]⟩
  · exact hi.pending r op hop

theorem asked_step (h : Trans σ act σ') (hσ : σ.AtRest) (hi : σ.PollInv) (c : Nat)
    (call' : Call n Cmd) (r : Nat) (args : RequestVoteArgs n) (hc' : σ'.Asks c call' r args) :
    args.candidateId = call'.caller ∧ call'.callee ≠ call'.caller ∧
    ∃ op, σ'.opinions[r]? = some op ∧ op.server = call'.caller ∧ call'.callee ∉ op.pending := by
  rcases h.asks_cases hc' with ⟨call, hc, h1, h2, -⟩ | ⟨rfl, op, hop, hj, hop', h1, hargs⟩
  · obtain ⟨hcand, hne, op, hop, hs, hp⟩ := hi.asked c call r args hc
    obtain ⟨op', hop', hs', hp'⟩ := h.opinion_mono hop
    rw [h1, h2]
    exact ⟨hcand, hne, op', hop', hs'.trans hs, fun hmem ↦ hp (hp'.subset hmem)⟩
  · obtain ⟨hnd, hself⟩ := hi.pending r op hop
    obtain ⟨last, -, rfl⟩ := Raft.requestVoteArgs_spec hargs
    refine ⟨(hσ op.server).1.trans h1.symm, fun heq ↦ ?_, _, hop', h1.symm, hnd.not_mem_erase⟩
    exact hself (h1 ▸ heq ▸ hj)

theorem once_step (h : Trans σ act σ') (hi : σ.PollInv) (c c' : Nat) (x x' : Call n Cmd)
    (r : Nat) (args args' : RequestVoteArgs n) (hc : σ'.Asks c x r args)
    (hc' : σ'.Asks c' x' r args') (heq : x.callee = x'.callee) : c = c' := by
  -- whom an old call asked is not pending any more, so a new one asks somebody else
  have hold : ∀ {c₀ y a₀ op}, σ.Asks c₀ y r a₀ → σ.opinions[r]? = some op →
      y.callee ∉ op.pending := by
    intro c₀ y a₀ op hy hop
    obtain ⟨-, -, op₁, hop₁, -, hn⟩ := hi.asked c₀ y r a₀ hy
    obtain rfl := Option.some_inj.mp (hop.symm.trans hop₁)
    exact hn
  rcases h.asks_cases hc with ⟨y, hy, -, h2, -⟩ | ⟨hlen, op, hop, hj, -⟩
  · rcases h.asks_cases hc' with ⟨y', hy', -, h2', -⟩ | ⟨-, op, hop, hj, -⟩
    · exact hi.once c c' y y' r args args' hy hy' (h2 ▸ h2' ▸ heq)
    · exact absurd (h2 ▸ heq ▸ hj) (hold hy hop)
  · rcases h.asks_cases hc' with ⟨y', hy', -, h2', -⟩ | ⟨hlen', -⟩
    · exact absurd (h2' ▸ heq ▸ hj) (hold hy' hop)
    · exact hlen.trans hlen'.symm

omit [Labgob (Saved n Cmd)] in
/-- A vote counted for an opinion is one for its server, by another one, that is not to be asked any
more. -/
theorem counted_spec (hi : σ.PollInv) {r : Nat} {v : Fin n} {T : Int}
    (h : .counted r v T ∈ σ.hist) : ∃ op, σ.opinions[r]? = some op ∧ v ≠ op.server ∧
      v ∉ op.pending ∧ σ.Voted v op.server T := by
  obtain ⟨c, call, args, reply, hc, hr, rfl, rfl, hg⟩ := hi.counted r v T h
  obtain ⟨hcand, hne, op, hop, hs, hp⟩ := hi.asked c call r args ⟨hc, _, hr⟩
  refine ⟨op, hop, hs ▸ hne, hp, Or.inr ⟨call, List.mem_of_getElem? hc, rfl, ?_⟩⟩
  rw [hr]
  exact ⟨hg, hcand.trans hs.symm, rfl⟩

omit [Labgob (Saved n Cmd)] in
/-- Nothing is counted for an opinion that does not exist. -/
theorem tally_eq_nil (hi : σ.PollInv) {r : Nat} (hr : σ.opinions.length ≤ r) :
    tally σ.hist r = [] := by
  refine List.eq_nil_iff_forall_not_mem.mpr fun x hx ↦ ?_
  obtain ⟨op, hop, -⟩ := hi.counted_spec (mem_tally.mp hx)
  have := (List.getElem?_eq_some_iff.mp hop).1
  omega

theorem supporter_step (h : Trans σ act σ') (hi : σ.PollInv) (r : Nat) (op' : Opinion n)
    (hop' : σ'.opinions[r]? = some op') : op'.supporter = (tally σ'.hist r).length + 1 := by
  rcases h.opinion_cases hop' with ⟨op, hop, -, -, hsup, ht⟩ | ⟨a, rfl, rfl, ht⟩ |
    ⟨c, call, args, reply, op, -, -, -, -, hop, -, rfl, ht, -⟩
  · rw [hsup, ht, hi.supporter r op hop]
  · rw [ht, hi.tally_eq_nil le_rfl]
    rfl
  · simp [ht, hi.supporter r op hop]

theorem counted_step (h : Trans σ act σ') (hi : σ.PollInv) (r : Nat) (v : Fin n) (T : Int)
    (hev : .counted r v T ∈ σ'.hist) : ∃ (c : Nat) (call : Call n Cmd) (args : _)
    (reply : RequestVoteReply), σ'.calls[c]? = some call ∧ call.rpc = .vote r args (some reply) ∧
      call.callee = v ∧ args.term = T ∧ reply.voteGranted = true := by
  have hold : ∃ (c : Nat) (call : Call n Cmd) (args : _) (reply : RequestVoteReply),
      σ.calls[c]? = some call ∧ call.rpc = .vote r args (some reply) ∧ call.callee = v ∧
      args.term = T ∧ reply.voteGranted = true := by
    rcases h.mem_hist hev with hold | hnew
    · exact hi.counted r v T hold
    · cases hnew with
      | counted hc hw hr hv => exact ⟨_, _, _, _, hc, hr, rfl, rfl, hv.1⟩
  obtain ⟨c, call, args, reply, hc, hr, hv, hT, hg⟩ := hold
  obtain ⟨call', hc', -, hcallee, -, hrpc | hrep⟩ := h.call_mono hc
  · exact ⟨c, call', args, reply, hc', hrpc.trans hr, hcallee.trans hv, hT, hg⟩
  · exact absurd (hr ▸ ⟨hg, rfl, hT⟩) (hrep.not_grants args.candidateId T)

/-- How the votes counted for an opinion change: not at all, or by one that was waited for. -/
theorem tally_cases (h : Trans σ act σ') (hσ : σ.AtRest) (hi : σ.PollInv) (r : Nat) :
    tally σ'.hist r = tally σ.hist r ∨
    ∃ c call args, σ.Asks c call r args ∧ call.waiting = true ∧
      (σ.CountsOneTerm act → ∀ x ∈ tally σ.hist r, x.2 = args.term) ∧
      tally σ'.hist r = tally σ.hist r ++ [(call.callee, args.term)] ∧
      σ'.calls = σ.calls.set c { call with waiting := false } := by
  rcases Nat.lt_or_ge r σ'.opinions.length with hlt | hge
  · rcases h.opinion_cases (List.getElem?_eq_getElem hlt) with ⟨-, -, -, -, -, ht⟩ |
      ⟨-, -, -, ht⟩ | ⟨c, call, args, reply, op, rfl, hc, hw, hr, -, hv, -, ht, hcalls⟩
    · exact Or.inl ht
    · exact Or.inl ht
    · refine Or.inr ⟨c, call, args, ⟨hc, _, hr⟩, hw, fun hone ↦ ?_, ht, hcalls⟩
      have := hone call hc
      rw [hr] at this
      exact this hv
  · -- nothing is counted for an opinion that does not exist
    rw [hi.tally_eq_nil (h.opinions_length.trans hge)]
    refine Or.inl (List.eq_nil_iff_forall_not_mem.mpr fun x hx ↦ ?_)
    obtain ⟨c, call, args, reply, hc, hr, -⟩ := counted_step h hi r x.1 x.2 (mem_tally.mp hx)
    obtain ⟨-, -, op, hop, -⟩ := asked_step h hσ hi c call r args ⟨hc, _, hr⟩
    have := (List.getElem?_eq_some_iff.mp hop).1
    omega

theorem distinct_step (h : Trans σ act σ') (hσ : σ.AtRest) (hi : σ.PollInv) (r : Nat) :
    ((tally σ'.hist r).map Prod.fst).Nodup := by
  rcases tally_cases h hσ hi r with ht | ⟨c, call, args, hask, hw, -, ht, -⟩
  · rw [ht]
    exact hi.distinct r
  · rw [ht, List.map_append]
    refine List.Nodup.append (hi.distinct r) (by simp) ?_
    rw [List.map_singleton, List.disjoint_singleton]
    exact hi.waiting c call r args hask hw

theorem waiting_step (h : Trans σ act σ') (hσ : σ.AtRest) (hi : σ.PollInv) (c : Nat)
    (call' : Call n Cmd) (r : Nat) (args : RequestVoteArgs n) (hc' : σ'.Asks c call' r args)
    (hw' : call'.waiting = true) : call'.callee ∉ (tally σ'.hist r).map Prod.fst := by
  have hold : call'.callee ∉ (tally σ.hist r).map Prod.fst := by
    rcases h.asks_cases hc' with ⟨call, hc, h1, h2, h3⟩ | ⟨-, op, hop, hj, -⟩
    · rw [h2]
      exact hi.waiting c call r args hc (h3 hw')
    · intro hmem
      obtain ⟨x, hx, hv⟩ := List.mem_map.mp hmem
      obtain ⟨op₁, hop₁, -, hp, -⟩ := hi.counted_spec (mem_tally.mp hx)
      obtain rfl := Option.some_inj.mp (hop.symm.trans hop₁)
      exact hp (hv ▸ hj)
  rcases tally_cases h hσ hi r with ht | ⟨c₀, call, args₀, hask, hw, -, ht, hcalls⟩
  · rwa [ht]
  rw [ht, List.map_append, List.mem_append]
  rintro (hmem | hmem)
  · exact hold hmem
  · -- the call that was just counted is the only one to its callee, and nobody waits for it now
    have hcallee : call'.callee = call.callee := by simpa using hmem
    have hset : σ'.calls[c₀]? = some { call with waiting := false } := by
      rw [hcalls, List.getElem?_set_self (List.getElem?_eq_some_iff.mp hask.1).1]
    obtain rfl := once_step h hi c c₀ call' _ r args args₀ hc' ⟨hset, hask.2⟩ hcallee
    rw [hc'.1, Option.some_inj] at hset
    rw [hset] at hw'
    simp at hw'

theorem step (h : Trans σ act σ') (hσ : σ.AtRest) (hi : σ.PollInv) : σ'.PollInv :=
  ⟨pending_step h hi, asked_step h hσ hi, once_step h hi, supporter_step h hi,
    distinct_step h hσ hi, waiting_step h hσ hi, counted_step h hi⟩

end PollInv

theorem pollInv_of_reach {P : Cluster n Cmd → Action n Cmd → Cluster n Cmd → Prop}
    {σ : Cluster n Cmd} (h : (machine n Cmd).Reach P σ) : σ.PollInv := by
  refine h.invariant (I := PollInv) ?_ fun σ act σ' hr hi hs _ ↦
    hi.step (Trans.of_step hs) (atRest_of_reach hr)
  constructor <;> simp [machine, init, Asks, tally, counts]

/-! ## Winning -/

/-- An election is won by a majority where the winner's counter holds votes of one term only, and
also where the cluster is so small that the last of them decides. -/
theorem majority_of_elect {σ σ' : Cluster n Cmd} {act : Action n Cmd} (h : Trans σ act σ')
    (hσ : σ.AtRest) (hrole : σ.RoleInv) (hi : σ.PollInv) (hone : n ≤ 3 ∨ σ'.OneTermEach)
    {a : Fin n} {T : Int} (hnew : Happens σ σ' (.elected a T)) : Majority (σ'.voters a T) := by
  cases hnew with
  | @elected c r call args reply op hc hw hr hop hv hmany hop' hev hrf =>
    have hi' : σ'.PollInv := hi.step h hσ
    obtain ⟨-, hcand, hterm, -⟩ := Raft.countsVote_spec hv
    have hserver : op.server = call.caller := by
      obtain ⟨-, -, op₁, hop₁, hs, -⟩ := hi.asked c call r args ⟨hc, _, hr⟩
      rwa [← Option.some_inj.mp (hop.symm.trans hop₁)] at hs
    have hself : call.caller ∈ σ'.voters call.caller args.term :=
      mem_voters.mpr (h.voted_mono (Or.inl ⟨rfl, hterm ▸ hrole.candidate _ hcand⟩))
    -- what the counter counts are other servers that voted for the winner, in some term
    have hcounted : ∀ {v T'}, .counted r v T' ∈ σ'.hist →
        v ≠ call.caller ∧ (T' = args.term → v ∈ σ'.voters call.caller args.term) := by
      intro v T' hcv
      obtain ⟨op₁, hop₁, hne, -, hvote⟩ := hi'.counted_spec hcv
      obtain rfl := Option.some_inj.mp (hop'.symm.trans hop₁)
      simp only [hserver] at hne hvote
      exact ⟨hne, fun heq ↦ mem_voters.mpr (heq ▸ hvote)⟩
    rw [Majority, Fintype.card_fin]
    rcases hone with hsmall | hone
    · obtain ⟨hne, hvote⟩ := hcounted hev
      have hsub : {call.caller, call.callee} ⊆ σ'.voters call.caller args.term := by
        simp [Finset.insert_subset_iff, hself, hvote rfl]
      have := Finset.card_le_card hsub
      rw [Finset.card_pair hne.symm] at this
      omega
    · have hsub : insert call.caller ((tally σ'.hist r).map Prod.fst).toFinset ⊆
          σ'.voters call.caller args.term := by
        intro v hmem
        rcases Finset.mem_insert.mp hmem with rfl | hmem
        · exact hself
        · obtain ⟨x, hx, rfl⟩ := List.mem_map.mp (List.mem_toFinset.mp hmem)
          have hcv := mem_tally.mp hx
          exact (hcounted hcv).2 (hone r _ _ _ _ hcv hev)
      have hnot : call.caller ∉ ((tally σ'.hist r).map Prod.fst).toFinset := by
        intro hmem
        obtain ⟨x, hx, heq⟩ := List.mem_map.mp (List.mem_toFinset.mp hmem)
        exact (hcounted (mem_tally.mp hx)).1 heq
      have hcard := Finset.card_le_card hsub
      rw [Finset.card_insert_of_notMem hnot, List.toFinset_card_of_nodup (hi'.distinct r),
        List.length_map] at hcard
      have hsup : op.supporter + 1 = _ := hi'.supporter r _ hop'
      omega

theorem MajorityBacked.step {σ σ' : Cluster n Cmd} {act : Action n Cmd} (h : Trans σ act σ')
    (hm : σ.MajorityBacked)
    (hnew : ∀ a T, Happens σ σ' (.elected a T) → Majority (σ'.voters a T)) :
    σ'.MajorityBacked := by
  intro a T hev
  rcases h.mem_hist hev with hold | hnow
  · exact (hm a T hold).mono fun v hv ↦ mem_voters.mpr (h.voted_mono (mem_voters.mp hv))
  · exact hnew a T hnow

theorem OneTermEach.step {σ σ' : Cluster n Cmd} {act : Action n Cmd} (h : Trans σ act σ')
    (hσ : σ.AtRest) (hi : σ.PollInv) (hone : σ.OneTermEach) (hact : σ.CountsOneTerm act) :
    σ'.OneTermEach := by
  intro r v v' T T' hv hv'
  rw [← mem_tally] at hv hv'
  rcases PollInv.tally_cases h hσ hi r with ht | ⟨c, call, args, -, -, hsame, ht, -⟩
  · rw [ht] at hv hv'
    exact hone r v v' T T' (mem_tally.mp hv) (mem_tally.mp hv')
  · have hterm : ∀ x ∈ tally σ'.hist r, x.2 = args.term := by
      intro x hx
      rw [ht] at hx
      rcases List.mem_append.mp hx with hold | hnew
      · exact hsame hact x hold
      · rw [List.mem_singleton.mp hnew]
    exact (hterm _ hv).trans (hterm _ hv').symm

/-- **Where no counter mixes terms, or with at most three servers, every election is won by a
majority.** -/
theorem majorityBacked_of_reach {σ : Cluster n Cmd}
    (h : (machine n Cmd).Reach (fun σ act _ ↦ n ≤ 3 ∨ σ.CountsOneTerm act) σ) :
    (n ≤ 3 ∨ σ.OneTermEach) ∧ σ.MajorityBacked := by
  refine h.invariant (I := fun σ ↦ (n ≤ 3 ∨ σ.OneTermEach) ∧ σ.MajorityBacked) ?_
    fun σ act σ' hr hm hs hone ↦ ?_
  · refine ⟨Or.inr ?_, ?_⟩
    · intro r v v' T T' hev
      simp [machine, init] at hev
    · intro a T hev
      simp [machine, init] at hev
  · have ht := Trans.of_step hs
    have hσ := atRest_of_reach hr
    have hi := pollInv_of_reach hr
    have hone' : n ≤ 3 ∨ σ'.OneTermEach := by
      rcases hone with hn | hact
      · exact Or.inl hn
      · exact hm.1.imp id fun ho ↦ ho.step ht hσ hi hact
    exact ⟨hone', hm.2.step ht fun a T hnew ↦
      majority_of_elect ht hσ (roleInv_of_reach hr) hi hone' hnew⟩

omit [Labgob (Saved n Cmd)] in
/-- Where elections are won by majorities, a term has at most one leader. -/
theorem MajorityBacked.unique {σ : Cluster n Cmd} (hm : σ.MajorityBacked) (hv : σ.VoteInv)
    {a b : Fin n} {T : Int} (ha : .elected a T ∈ σ.hist) (hb : .elected b T ∈ σ.hist) : a = b := by
  obtain ⟨v, hva, hvb⟩ := (hm a T ha).meet (hm b T hb)
  exact hv.unique v a b T (mem_voters.mp hva) (mem_voters.mp hvb)

/-- **Election safety.**  In a run in which a vote is only ever counted together with votes of the
same term — or which has at most three servers — no two servers become leader in the same term. -/
theorem election_safety {σ : Cluster n Cmd}
    (h : (machine n Cmd).Reach (fun σ act _ ↦ n ≤ 3 ∨ σ.CountsOneTerm act) σ) {a b : Fin n}
    {T : Int}
    (ha : .elected a T ∈ σ.hist) (hb : .elected b T ∈ σ.hist) : a = b :=
  (majorityBacked_of_reach h).2.unique (voteInv_of_reach h) ha hb

theorem election_safety_of_five :
    ∃ σ : Cluster 5 Nat, (machine 5 Nat).Reach (fun σ act _ ↦ 5 ≤ 3 ∨ σ.CountsOneTerm act) σ ∧
      .elected 0 1 ∈ σ.hist ∧ ∀ b, .elected b 1 ∈ σ.hist → b = 0 := by
  obtain ⟨σ, hσ, h0⟩ := Machine.exists_reach_of_exec (M := machine 5 Nat)
    (P := fun σ act _ ↦ 5 ≤ 3 ∨ σ.CountsOneTerm act) (Q := fun σ ↦ (0, 1) ∈ elections σ.hist)
    [.tick 0, .askVote 0 1, .askVote 0 2, .deliver 0, .deliver 1, .answer 0, .answer 1]
    (by decide +kernel)
  exact ⟨σ, hσ, mem_elections.mp h0, fun b hb ↦ election_safety hσ hb (mem_elections.mp h0)⟩

/-- Server `0` of four asks `1` in term `1` and gets its vote; before it asks the others, its
election times out, and it asks `2` in term `2` for the same counter.  Server `3` does likewise. -/
def mixedCounters : List (Action 4 Nat) :=
  [.tick 0, .askVote 0 1, .deliver 0, .answer 0, .tick 3, .askVote 1 2, .deliver 1, .answer 1,
    .tick 0, .tick 3, .askVote 0 2, .deliver 2, .answer 2, .askVote 1 1, .deliver 3, .answer 3]

/-- **Two leaders in one term**: the counters of `0` and of `3` reach three with two votes in term
`2` each. -/
theorem two_leaders_in_one_term : ∃ σ : Cluster 4 Nat, (machine 4 Nat).Reach (fun _ _ _ ↦ True) σ ∧
    .elected 0 2 ∈ σ.hist ∧ .elected 3 2 ∈ σ.hist := by
  obtain ⟨σ, hσ, h0, h3⟩ := Machine.exists_reach_of_exec (M := machine 4 Nat)
    (P := fun _ _ _ ↦ True) (Q := fun σ ↦ (0, 2) ∈ elections σ.hist ∧ (3, 2) ∈ elections σ.hist)
    mixedCounters (by decide +kernel)
  exact ⟨σ, hσ, mem_elections.mp h0, mem_elections.mp h3⟩

end Cluster

end DistLabs
