import DistLabs.Raft.Mirror

/-!
# The cluster simulates the ledger protocol

In a run in which every election is won by a majority of votes, every action of the cluster is
matched by moves of the ledger: `Rel.step`, and for whole runs `rel_of_reach`.  The safety of the
ledger protocol is thereby the safety of the code; what the relation is good for is in
`DistLabs.Raft.Safety`.

One thing is not matched in full.  A follower that takes over a snapshot keeps its entries beyond
it without a look at the entry they follow.  `GluesMatching` says of an action that it does no such
thing to a follower whose entry there has another term, and log matching — `Ledger.Whole` — is kept
by the actions that satisfy it.
-/

set_option autoImplicit false

namespace DistLabs

variable {n : Nat} {Cmd : Type}

open Ledger (endTerm Agree Grows Frame Acts)

/-! ## Gluing -/

/-- If this is an `InstallSnapshot` request and the server would take the snapshot over and keep
entries beyond it, then its own entry at the snapshot's last index has the snapshot's last term. -/
def Raft.GluesMatching (rf : Raft n Cmd) : Rpc n Cmd → Prop
  | .install _ args none => rf.currentTerm ≤ args.term → rf.snapIndex < args.lastIncludedIndex →
      args.lastIncludedIndex < rf.logLength - 1 →
      (rf.get args.lastIncludedIndex).map Entry.term = some args.lastIncludedTerm
  | _ => True

instance (rf : Raft n Cmd) : (rpc : Rpc n Cmd) → Decidable (rf.GluesMatching rpc)
  | .install _ _ none => inferInstanceAs (Decidable (_ → _ → _ → _))
  | .install _ _ (some _) | .vote _ _ _ | .append _ _ _ => isTrue trivial

/-- If the action lets a server glue entries it has to a snapshot, then they belong there. -/
def Cluster.GluesMatching (σ : Cluster n Cmd) : Action n Cmd → Prop
  | .deliver c => ∀ call ∈ σ.calls[c]?, (σ.node call.callee).rf.GluesMatching call.rpc
  | _ => True

instance (σ : Cluster n Cmd) : (act : Action n Cmd) → Decidable (σ.GluesMatching act)
  | .deliver _ => inferInstanceAs (Decidable (∀ _ ∈ _, _))
  | .tick _ | .askVote _ _ | .replicate _ | .answer _ | .lose _ | .start _ _ | .snapshot _ _ _
  | .wake _ | .collect _ | .send _ | .sendSnap _ _ | .restart _ => isTrue trivial

/-! ## One action -/

theorem NodeRel.setRf {g g' : RaftLedger n Cmd} {v : Fin n} {nd : Node n Cmd} {rf : Raft n Cmd}
    (h : NodeRel g v nd) (hG : Grows g g') (hs : ServerRel g' v rf)
    (happ : nd.rf.lastApplied ≤ rf.lastApplied) : NodeRel g' v { nd with rf := rf } :=
  ⟨hs, fun m hm ↦ ⟨(h.msgs m hm).1.mono hG, (h.msgs m hm).2.trans happ⟩⟩

/-- The ledger can follow the cluster to `σ'`, and keeps log matching on the condition `P`. -/
def Carried (P : Prop) (g : RaftLedger n Cmd) (σ' : Cluster n Cmd) : Prop :=
  ∃ g', Rel σ' g' ∧ (P → g.Whole → g'.Whole)

namespace Rel

variable [Labgob (Saved n Cmd)] {σ σ' : Cluster n Cmd} {P : Prop} {g : RaftLedger n Cmd}

/-! ### Elections -/

theorem deliverVote (h : Rel σ g) (hσ : σ.AtRest) {c r : Nat} {call : Call n Cmd}
    {args : RequestVoteArgs n} {rf : Raft n Cmd} {reply : RequestVoteReply}
    (hc : σ.calls[c]? = some call) (hr : call.rpc = .vote r args none)
    (hrf : (σ.node call.callee).rf.requestVote args = some (rf, reply)) :
    Carried P g { σ.setRf call.callee rf with
      calls := σ.calls.set c { call with rpc := .vote r args (some reply) } } := by
  have ht := Cluster.Trans.deliverVote hc hr hrf
  have hnode := h.node call.callee
  obtain ⟨hA, hs⟩ := hnode.server.seeTerm (P := P) h.inv args.term
  rcases (Raft.requestVote_spec hrf).2 with ⟨hng, rfl⟩ | ⟨hg, hle, -, ⟨last, hlast, hup⟩, rfl⟩
  · refine ⟨_, h.handle ht hσ hA rfl rfl hc rfl rfl rfl (hnode.setRf hA.grows hs ?_)
      (fun _ _ _ ↦ rfl) ?_, hA.whole⟩
    · simp
    · intro hgr
      rw [hng] at hgr
      simp at hgr
  -- the server after the vote, on the ledger after the bump
  replace hs : ServerRel _ _ (Raft.persist
      { (σ.node call.callee).rf.seeTerm args.term with votedFor := some args.candidateId }) :=
    hs.congr rfl rfl rfl rfl rfl fun hl ↦ ⟨hl, rfl⟩
  by_cases hw : g.winner args.term = none
  · set x : Ledger.Vote (Fin n) :=
      ⟨call.callee, args.candidateId, args.term, args.lastLogTerm, args.lastLogIndex⟩ with hx
    have hA' : Acts P g _ call.callee := hA.trans (.castVote (x := x) hA.inv ?_ hw ?_)
    · refine ⟨_, h.handle ht hσ hA' rfl rfl hc rfl rfl rfl
        (hnode.setRf hA'.grows (hs.castVote x) ?_) (fun _ _ _ ↦ rfl) ?_, hA'.whole⟩
      · simp [Raft.persist]
      · exact fun _ _ ↦ Set.mem_insert _ _
    · rw [max_eq_right hle]
      exact Function.update_self ..
    · have hterm := hnode.server.get_term hlast
      rw [hnode.server.logLength, Nat.add_sub_cancel, List.take_length] at hterm
      rw [hnode.server.logLength, Nat.add_sub_cancel] at hup
      change Ledger.UpToDate args.lastLogTerm args.lastLogIndex (endTerm (g.log call.callee))
        (g.log call.callee).length
      rw [← hterm]
      exact hup
  · refine ⟨_, h.handle ht hσ hA rfl rfl hc rfl rfl rfl (hnode.setRf hA.grows hs ?_)
      (fun _ _ _ ↦ rfl) fun _ hw' ↦ absurd hw' hw, hA.whole⟩
    simp [Raft.persist]

omit [Labgob (Saved n Cmd)] in
/-- Who voted for a candidate of an open term did so on the log the candidate has now. -/
theorem vote_of_voted (h : Rel σ g) (hp : σ.PollInv) {u a : Fin n} {T : Int}
    (hs : (σ.node a).rf.state = .candidate) (ht : (σ.node a).rf.currentTerm = T)
    (hw : g.winner T = none) (hv : σ.Voted u a T) :
    u = a ∨ ⟨u, a, T, endTerm (g.log a), (g.log a).length⟩ ∈ g.votes := by
  rcases hv with ⟨rfl, -⟩ | ⟨call, hmem, rfl, hg⟩
  · exact Or.inl rfl
  · right
    obtain ⟨c, hc⟩ := List.mem_iff_getElem?.mp hmem
    have hreq := h.request call hmem
    have hrep := h.reply call hmem
    rcases hr : call.rpc with ⟨r, args, _ | reply⟩ | _ | _ <;> rw [hr] at hg
    · exact absurd hg id
    · obtain ⟨hgr, hcand, rfl⟩ := hg
      have hcaller := (hp.asked c call r args ⟨hc, _, hr⟩).1.symm.trans hcand
      rw [hr] at hreq hrep
      rw [hcaller] at hreq
      obtain ⟨h1, h2⟩ := hreq.2 hs ht hw
      have := hrep hgr hw
      rwa [hcand, h1, h2] at this
    · exact absurd hg id
    · exact absurd hg id

theorem elect (h : Rel σ g) (hσ : σ.AtRest) (hrole : σ.RoleInv) (hp : σ.PollInv)
    {c r : Nat} {call : Call n Cmd} {args : RequestVoteArgs n} {reply : RequestVoteReply}
    (ht : Cluster.Trans σ (.answer c) σ') (hc : σ.calls[c]? = some call)
    (hv : (σ.node call.caller).rf.countsVote args reply)
    (hn : σ'.node = (σ.setRf call.caller (σ.node call.caller).rf.becomeLeader).node)
    (hcalls : σ'.calls = σ.calls.set c { call with waiting := false })
    (hhist : σ'.hist = σ.hist ++
      [.counted r call.callee args.term, .elected call.caller args.term])
    (hvote : σ'.VoteInv) (hm : σ'.MajorityBacked) : Carried P g σ' := by
  obtain ⟨-, hcand, hterm, -⟩ := Raft.countsVote_spec hv
  have hnode := h.node call.caller
  have hev : .elected call.caller args.term ∈ σ'.hist := by simp [hhist]
  -- the term is open: its winner would be this very server, which has not won yet
  have hopen : g.winner args.term = none := by
    cases hw : g.winner args.term with
    | none => rfl
    | some b =>
      have hold := h.elected b args.term hw
      obtain rfl := hm.unique hvote (ht.hist_subset hold) hev
      exact absurd hcand ((hrole.elected _ _ hold).2 hterm)
  -- nobody has voted in this action
  have hvoters : ∀ u ∈ σ'.voters call.caller args.term, σ.Voted u call.caller args.term := by
    intro u hu
    rcases Cluster.mem_voters.mp hu with ⟨rfl, hca⟩ | ⟨call', hmem, rfl, hg⟩
    · exact Or.inl ⟨rfl, by simpa [hhist] using hca⟩
    · obtain ⟨i, hi⟩ := List.mem_iff_getElem?.mp hmem
      rw [hcalls] at hi
      rcases List.getElem?_set_cases hi with ⟨rfl, rfl⟩ | ⟨-, hold⟩
      · exact Or.inr ⟨call, List.mem_of_getElem? hc, rfl, hg⟩
      · exact Or.inr ⟨call', List.mem_of_getElem? hold, rfl, hg⟩
  obtain ⟨hA, hs⟩ := hnode.server.becomeLeader (P := P) h.inv (hterm.symm ▸ hopen)
    (hrole.nonneg _) (hm _ _ hev) fun u hu ↦
      hterm.symm ▸ h.vote_of_voted hp hcand hterm hopen (hvoters u hu)
  refine ⟨_, h.advance _ ht hσ hA hn (hnode.setRf hA.grows hs le_rfl) (fun hst ↦ ?_)
    (fun call' hc' ↦ ?_) (fun c' hc' ↦ by simp at hc') (fun b T hb hb' ↦ ?_) (fun _ _ ↦ Or.inl)
    hhist
    (fun e he ↦ ?_) (by simp), hA.whole⟩
  · simp [Raft.becomeLeader] at hst
  · rw [hcalls, List.getElem?_eq_none (by simp)] at hc'
    simp at hc'
  · by_cases hT : T = (σ.node call.caller).rf.currentTerm
    · subst hT
      have : (g.elect call.caller (σ.node call.caller).rf.currentTerm).winner _ = some _ :=
        Function.update_self ..
      rw [hb, Option.some_inj] at this
      rw [this, hterm]
      exact hev
    · have : (g.elect call.caller (σ.node call.caller).rf.currentTerm).winner T = g.winner T :=
        Function.update_of_ne hT ..
      rw [hb, hb'] at this
      simp at this
  · rcases List.mem_pair.mp he with rfl | rfl
    · trivial
    · rw [← hterm]
      exact Function.update_self ..

/-! ### Replication -/

theorem deliverAppend (h : Rel σ g) (hσ : σ.AtRest) {c k : Nat} {call : Call n Cmd}
    {args : AppendEntriesArgs n Cmd} {rf : Raft n Cmd} {reply : AppendEntriesReply}
    (hc : σ.calls[c]? = some call) (hr : call.rpc = .append k args none)
    (hrf : (σ.node call.callee).rf.appendEntries args = some (rf, reply)) :
    Carried P g { σ.setRf call.callee rf with
      calls := σ.calls.set c { call with rpc := .append k args (some reply) } } := by
  have ht := Cluster.Trans.deliverAppend hc hr hrf
  have hnode := h.node call.callee
  have hreq := h.request call (List.mem_of_getElem? hc)
  rw [hr] at hreq
  obtain ⟨g', hA, hs, hw, hcom, happ, -, hack, hkeep⟩ :=
    hnode.server.appendEntries (P := P) h.inv hreq hrf
  refine ⟨g', h.handle ht hσ hA hw hcom hc rfl rfl rfl (hnode.setRf hA.grows hs happ.ge)
    (fun _ _ hnone ↦ ?_) hack, hA.whole⟩
  -- a term with a leader is no longer anybody's candidacy
  rcases hkeep with hsame | hterm
  · exact hsame
  · dsimp only at hnone
    rw [hterm, hw] at hnone
    exact absurd (hreq.winner.symm.trans hnone) (by simp)

theorem answerAppend (h : Rel σ g) (hσ : σ.AtRest) {c k : Nat} {call : Call n Cmd}
    {args : AppendEntriesArgs n Cmd} {reply : AppendEntriesReply} {rf : Raft n Cmd}
    (ht : Cluster.Trans σ (.answer c) σ') (hc : σ.calls[c]? = some call)
    (hr : call.rpc = .append k args (some reply))
    (hrf : (σ.node call.caller).rf.singleAppendReply call.callee args reply = some rf)
    (hn : σ'.node = (σ.setRf call.caller rf).node) (hlen : σ'.calls.length = σ.calls.length)
    (hhist : σ'.hist = σ.hist ++ if (σ.node call.caller).rf.commitIndex < rf.commitIndex
      then [.committed call.caller rf] else []) : Carried P g σ' := by
  have hnode := h.node call.caller
  have hrep := h.reply call (List.mem_of_getElem? hc)
  rw [hr] at hrep
  -- as long as the commit index stays, there is nothing to record
  have hquiet : ∀ {g' : RaftLedger n Cmd}, Acts P g g' call.caller → g'.winner = g.winner →
      g'.commits = g.commits → g'.log call.caller = g.log call.caller →
      ServerRel g' call.caller rf →
      rf.lastApplied = (σ.node call.caller).rf.lastApplied →
      rf.commitIndex = (σ.node call.caller).rf.commitIndex → Carried P g σ' := by
    intro g' hA hwin hcommits hlog hs happ hcom
    refine ⟨g', h.move [] ht hσ (by simp) hA hwin (fun _ _ ↦ hcommits ▸ Or.inl) hlen hn
      (hnode.setRf hA.grows hs happ.ge) (fun _ _ _ ↦ hlog) ?_ (by simp) (by simp), hA.whole⟩
    rw [hhist, hcom, if_neg (lt_irrefl _)]
  rcases Raft.singleAppendReply_spec hrf with rfl | ⟨-, -, -, -, next, v, -, -, rfl⟩ |
    ⟨hok, hterm, hlead, m, next, rf₁, hm, -, rfl, hcase⟩
  · obtain ⟨hA, hs⟩ := hnode.server.seeTerm (P := P) h.inv reply.term
    exact hquiet hA rfl rfl rfl hs (by simp) (by simp)
  · exact hquiet (Acts.refl h.inv _) rfl rfl rfl
      (hnode.server.congr rfl rfl rfl rfl rfl fun hl ↦ ⟨hl, rfl⟩) rfl rfl
  have hs := hnode.server.setMatch hm (i := call.callee)
    (some (Function.update next call.callee (args.prevLogIndex + args.entries.length + 1)))
    (x := args.prevLogIndex + args.entries.length) fun _ ↦ Or.inr (by
      rw [hterm]
      exact_mod_cast hrep hok)
  rcases hcase with rfl | ⟨M, e, q, hM, hsn, hcount, hmaj, he, hte, rfl⟩
  · exact hquiet (Acts.refl h.inv _) rfl rfl rfl hs rfl rfl
  obtain ⟨hA, hs'⟩ := hs.commit (P := P) h.inv (hσ _).1 hlead hM hsn hcount hmaj he hte
  rw [if_pos (by exact hM)] at hhist
  refine ⟨_, h.move _ ht hσ (by simp) hA rfl (fun T q hq ↦ ?_) hlen hn
    (hnode.setRf hA.grows hs' le_rfl) (fun _ _ _ ↦ rfl) hhist (fun ev hev ↦ ?_) (by simp), hA.whole⟩
  · rcases Set.mem_insert_iff.mp hq with heq | hold
    · obtain ⟨rfl, rfl⟩ := Prod.mk.injEq .. ▸ heq
      have hev := hhist ▸ List.mem_append_right σ.hist (List.mem_singleton_self _)
      exact Or.inr ⟨call.caller, _, hev, rfl, (Nat.sub_add_cancel (Nat.one_le_of_lt hM)).symm⟩
    · exact Or.inl hold
  rw [List.mem_singleton.mp hev]
  refine ⟨Nat.zero_lt_of_lt hM, Set.mem_insert _ _, fun i hi hic ↦ ?_⟩
  exact hs'.leader_get hA.inv hlead hi hic

theorem start (h : Rel σ g) (hσ : σ.AtRest) {a : Fin n} {command : Option Cmd}
    (hs : (σ.node a).rf.state = .leader) : Carried P g
      { σ.setRf a ((σ.node a).rf.append ⟨(σ.node a).rf.currentTerm, command⟩) with
        hist := σ.hist ++
          [.started a (σ.node a).rf.logLength (σ.node a).rf.currentTerm command] } := by
  have ht : Cluster.Trans σ (.start a command) _ := .start hs
  have hnode := h.node a
  have hlen := hnode.server.logLength
  obtain ⟨hA, hs'⟩ := hnode.server.append (P := P) h.inv hs command
  refine ⟨_, h.advance _ ht hσ hA rfl (hnode.setRf hA.grows hs' le_rfl) (fun hst ↦ ?_)
    (fun call' hc' ↦ ?_) (fun c hc ↦ by simp at hc) (fun b T hb hb' ↦ ?_) (fun _ _ ↦ Or.inl) rfl
    (fun e he ↦ ?_) ?_, hA.whole⟩
  · change (σ.node a).rf.state = .candidate at hst
    rw [hs] at hst
    simp at hst
  · change σ.calls[σ.calls.length]? = some call' at hc'
    simp at hc'
  · exact absurd (hb'.symm.trans hb) (by simp)
  · rw [List.mem_singleton.mp he]
    refine ⟨by omega, ?_⟩
    have hnew : (g.create a (σ.node a).rf.currentTerm
        ⟨(σ.node a).rf.currentTerm, command⟩).leaderLog (σ.node a).rf.currentTerm = _ :=
      Function.update_self ..
    rw [hnew, (hnode.server.leader hs).log, hlen, Nat.add_sub_cancel, List.getElem?_concat_length]
  · -- whatever was delivered at this index or beyond, another entry is committed here
    intro b i T cmd hst d m hm hle
    obtain ⟨rfl, rfl, rfl, rfl⟩ := Event.started.injEq .. ▸ List.mem_singleton.mp hst
    obtain ⟨U, k, hc, hk⟩ : ∃ U k, (U, k) ∈ g.commits ∧ m.index ≤ k + 1 := by
      have hmsg := h.event _ hm
      cases m with
      | command =>
        obtain ⟨U, k, hc, -, hk, -⟩ := hmsg
        exact ⟨U, k, hc, hk⟩
      | snapshot => exact hmsg
    obtain ⟨e, he, hne⟩ := hnode.server.committed_ahead h.inv hs hc (by omega)
    refine ⟨U, k, e, hc, by omega, hA.grows.getElem? ?_, hne⟩
    rwa [hlen, Nat.add_sub_cancel]

/-! ### Snapshots -/

theorem deliverInstall (h : Rel σ g) (hσ : σ.AtRest) {c k : Nat} {call : Call n Cmd}
    {args : InstallSnapshotArgs n} {rf : Raft n Cmd} {reply : Int} {msg : Option (ApplyMsg Cmd)}
    (hc : σ.calls[c]? = some call) (hr : call.rpc = .install k args none)
    (hrf : (σ.node call.callee).rf.installSnapshot args = some (rf, reply, msg)) :
    Carried (σ.GluesMatching (.deliver c)) g
      { σ.setNode call.callee { σ.node call.callee with
          rf := rf, snapSends := (σ.node call.callee).snapSends ++ msg.toList } with
        calls := σ.calls.set c { call with rpc := .install k args (some reply) } } := by
  have ht := Cluster.Trans.deliverInstall hc hr hrf
  have hnode := h.node call.callee
  have hreq := h.request call (List.mem_of_getElem? hc)
  rw [hr] at hreq
  obtain ⟨hA, hs⟩ := hnode.server.seeTerm (P := σ.GluesMatching (.deliver c)) h.inv args.term
  rcases (Raft.installSnapshot_spec hrf).2 with ⟨rfl, rfl, -⟩ | ⟨hle, hlt, hcase⟩
  · rw [Option.toList_none, List.append_nil] at ht ⊢
    refine ⟨_, h.handle ht hσ hA rfl rfl hc rfl rfl rfl (hnode.setRf hA.grows hs ?_)
      (fun _ _ _ ↦ rfl) trivial, hA.whole⟩
    simp
  have hcur : ((σ.node call.callee).rf.seeTerm args.term).currentTerm = args.term := by simp [hle]
  obtain ⟨hA', hs', hsealed⟩ := hs.restored (P := σ.GluesMatching (.deliver c)) hA.inv
    (hreq.1.mono hA.grows h.inv) hcur (by simpa using hlt) fun hglue hlong ↦ by
      have := hglue call hc
      rw [hr] at this
      simpa using this hle hlt (by simpa using hlong)
  have hA'' := hA.trans hA'
  have hidem : ((σ.node call.callee).rf.seeTerm args.term).restored args =
      (σ.node call.callee).rf.restored args := by
    rw [Raft.restored, Raft.restored, Raft.seeTerm_of_le hcur.ge]
    simp
  rw [hidem] at hs'
  have hterm : ((σ.node call.callee).rf.restored args).currentTerm = args.term := hcur
  have hwin : g.winner args.term = some call.caller := hreq.1.winner
  have hopen : ∀ {X : Prop}, g.winner args.term = none → X := fun hnone ↦
    absurd (hwin.symm.trans hnone) (by simp)
  rcases hcase with ⟨-, rfl, rfl⟩ | ⟨happ, rfl, rfl⟩
  · rw [Option.toList_none, List.append_nil] at ht ⊢
    refine ⟨_, h.handle ht hσ hA'' rfl rfl hc rfl rfl rfl (hnode.setRf hA''.grows hs' ?_)
      (fun _ _ hnone ↦ ?_) trivial, hA''.whole⟩
    · simp [Raft.restored, Raft.persist]
    · exact hopen (hterm ▸ hnone)
  · refine ⟨_, h.handle ht hσ hA'' rfl rfl hc rfl rfl rfl ⟨⟨hs'.term, hs'.log, hs'.snap, ?_, le_rfl,
      fun hl ↦ ?_⟩, fun m hm ↦ ?_⟩ (fun _ _ hnone ↦ ?_) trivial, hA''.whole⟩
    · change Ledger.Sealed _ ((σ.node call.callee).rf.restored args).currentTerm _ _
      rw [hterm]
      exact hsealed
    · exact absurd hl (hs'.not_leader (hterm.symm ▸ hwin) hreq.1.other)
    · simp only [Option.toList_some, List.mem_append, List.mem_singleton] at hm
      dsimp only
      -- the new message, and the old ones
      by_cases hnew : m = .snapshot args.lastIncludedIndex args.lastIncludedTerm args.data
      · subst hnew
        refine ⟨?_, le_rfl⟩
        rcases hsealed with h0 | ⟨U, k, hcom, -, hck, -⟩
        · omega
        · exact ⟨U, k, hcom, hck⟩
      · obtain ⟨h1, h2⟩ := hnode.msgs m (by
          simp only [List.mem_append]
          tauto)
        exact ⟨h1.mono hA''.grows, h2.trans happ.le⟩
    · exact hopen (hterm ▸ hnone)

theorem snapshot (h : Rel σ g) (hσ : σ.AtRest) {a : Fin n} {index : Nat} {data : Bytes}
    {e : Entry Cmd} (hm : ∃ m ∈ (σ.node a).received, m.index = index)
    (hlt : (σ.node a).rf.snapIndex < index) (he : (σ.node a).rf.get index = some e) :
    Carried P g { σ.setRf a (Raft.persist { (σ.node a).rf with
          log := ⟨e.term, none⟩ :: (σ.node a).rf.log.drop (index - (σ.node a).rf.snapIndex + 1)
          snapIndex := index
          snapshot := data }) with
        hist := σ.hist ++ [.cut a index data (σ.node a).rf] } := by
  have ht : Cluster.Trans σ (.snapshot a index data) _ := .snapshot hm hlt he
  have hnode := h.node a
  have happ : index ≤ (σ.node a).rf.lastApplied := by
    obtain ⟨m, hmem, rfl⟩ := hm
    exact (hnode.msgs m (List.mem_append_left _ hmem)).2
  obtain ⟨hA, hs⟩ := hnode.server.cut (P := P) h.inv data hlt he happ
  refine ⟨_, h.move _ ht hσ (by simp) hA rfl (fun _ _ ↦ Or.inl) rfl rfl
    (hnode.setRf hA.grows hs le_rfl)
    (fun _ _ _ ↦ ?_) rfl (fun ev hev ↦ ?_) (by simp), hA.whole⟩
  · exact Ledger.compact_log g (hnode.server.snap ▸ hlt)
  · rw [List.mem_singleton.mp hev]
    exact hnode.server.committed_get h.inv (by omega) (happ.trans hnode.server.applied)

/-! ### Delivery -/

theorem collect (h : Rel σ g) (hσ : σ.AtRest) {a : Fin n} {rf : Raft n Cmd}
    {batch : List (ApplyMsg Cmd)} (hw : (σ.node a).woken = true)
    (hk : (σ.node a).rf.guardKick = some (rf, batch)) :
    Carried P g (σ.setNode a { σ.node a with rf := rf, woken := false, batch := batch }) := by
  have ht := Cluster.Trans.collect hw hk
  have hnode := h.node a
  have hs := hnode.server
  obtain ⟨rfl, -, hbatch⟩ := Raft.guardKick_spec hk
  have hmax : max (σ.node a).rf.lastApplied (σ.node a).rf.commitIndex =
      (σ.node a).rf.commitIndex := max_eq_right hs.applied
  refine ⟨g, h.move (P := P) [] ht hσ (by simp) (Acts.refl h.inv a) rfl (fun _ _ ↦ Or.inl)
    rfl rfl ⟨⟨hs.term, hs.log, hs.snap, hs.committed, hmax.le, fun hl ↦ ?_⟩, fun m hm ↦ ?_⟩
    (fun _ _ _ ↦ rfl) (by simp [Cluster.setNode]) (by simp) (by simp), fun hp hwh ↦ hwh⟩
  · exact ⟨(hs.leader hl).winner, (hs.leader hl).log, (hs.leader hl).commits,
      (hs.leader hl).matched⟩
  · simp only [List.mem_append] at hm
    have hold : m ∈ (σ.node a).received ∨ m ∈ (σ.node a).snapSends →
        MsgRel g m ∧ m.index ≤ max (σ.node a).rf.lastApplied (σ.node a).rf.commitIndex := by
      intro hmem
      obtain ⟨h1, h2⟩ := hnode.msgs m (by
        simp only [List.mem_append]
        tauto)
      exact ⟨h1, h2.trans (le_max_left _ _)⟩
    rcases hm with hrec | hnew | hsnap
    · exact hold (Or.inl hrec)
    · obtain ⟨j, e, hj, hjc, hget, rfl⟩ := hbatch m hnew
      obtain ⟨U, k, hcom, hck, hall⟩ := hs.committed_get h.inv (by omega) hjc
      obtain ⟨e', he', hl⟩ := hall j hj le_rfl
      rw [hget, Option.some_inj] at he'
      subst he'
      exact ⟨⟨U, k, hcom, by omega, hck, hl⟩, hjc.trans (le_max_right _ _)⟩
    · exact hold (Or.inr hsnap)

/-- The service receives a message that was on its way. -/
theorem receive (h : Rel σ g) (hσ : σ.AtRest) {act : Action n Cmd}
    (ht : Cluster.Trans σ act σ') (hact : ∀ c, act ≠ .deliver c) {a : Fin n} {m : ApplyMsg Cmd}
    (batch snapSends : List (ApplyMsg Cmd))
    (hm : m ∈ (σ.node a).batch ++ (σ.node a).snapSends) (hb : batch ⊆ (σ.node a).batch)
    (hsn : snapSends ⊆ (σ.node a).snapSends) (hcalls : σ'.calls = σ.calls)
    (hn : σ'.node = (σ.setNode a { σ.node a with
      batch := batch, snapSends := snapSends, received := (σ.node a).received ++ [m] }).node)
    (hhist : σ'.hist = σ.hist ++ [.received a m]) : Carried P g σ' := by
  have hnode := h.node a
  refine ⟨g, h.move (P := P) _ ht hσ hact (Acts.refl h.inv a) rfl (fun _ _ ↦ Or.inl)
    (by rw [hcalls]) hn
    ⟨hnode.server, fun x hx ↦ hnode.msgs x ?_⟩ (fun _ _ _ ↦ rfl) hhist (fun e he ↦ ?_) (by simp),
    fun _ hw ↦ hw⟩
  · simp only [List.mem_append, List.mem_singleton] at hx hm ⊢
    rcases hx with (hx | rfl) | hx | hx
    · exact Or.inl hx
    · exact Or.inr hm
    · exact Or.inr (Or.inl (hb hx))
    · exact Or.inr (Or.inr (hsn hx))
  · rw [List.mem_singleton.mp he]
    exact (hnode.msgs m (List.mem_append_right _ hm)).1

/-! ### Every action -/

/-- **Every action is matched on the ledger**, if the elections so far were won by majorities. -/
theorem step (h : Rel σ g) {act : Action n Cmd} (ht : Cluster.Trans σ act σ') (hσ : σ.AtRest)
    (hrole : σ.RoleInv) (hp : σ.PollInv) (hvote : σ'.VoteInv) (hm : σ'.MajorityBacked) :
    Carried (σ.GluesMatching act) g σ' := by
  have hsame : Rel σ' g → Carried (σ.GluesMatching act) g σ' := fun h' ↦ ⟨g, h', fun _ hw ↦ hw⟩
  -- a caller that only sees the term of a reply
  have hsee : ∀ {a : Fin n} {T : Int} (evs : List (Event n Cmd)), (∀ c, act ≠ .deliver c) →
      σ'.calls.length = σ.calls.length →
      σ'.node = (σ.setRf a ((σ.node a).rf.seeTerm T)).node → σ'.hist = σ.hist ++ evs →
      (∀ e ∈ evs, EventRel g e) → (∀ b i T c, .started b i T c ∉ evs) →
      Carried (σ.GluesMatching act) g σ' := by
    intro a T evs hact hlen hn hhist hev hnone
    obtain ⟨hA, hs⟩ := (h.node a).server.seeTerm (P := σ.GluesMatching act) h.inv T
    refine ⟨_, h.move _ ht hσ hact hA rfl (fun _ _ ↦ Or.inl) hlen hn
      ((h.node a).setRf hA.grows hs ?_)
      (fun _ _ _ ↦ rfl) hhist (fun e he ↦ (hev e he).mono hA.grows) hnone, hA.whole⟩
    simp
  cases ht with
  | @tick a hs =>
    obtain ⟨hA, hs'⟩ := (h.node a).server.becomeCandidate (P := σ.GluesMatching (.tick a)) h.inv
    refine ⟨_, h.move _ (.tick hs) hσ (by simp) hA rfl (fun _ _ ↦ Or.inl) rfl rfl
      ((h.node a).setRf hA.grows hs' le_rfl) (fun _ heq ↦ ?_) rfl (by simp [EventRel]) (by simp),
      hA.whole⟩
    change (σ.node a).rf.currentTerm + 1 = _ at heq
    omega
  | @askVote r j op args hop hj ha =>
    refine hsame (h.ask (.askVote hop hj ha) hσ (by simp) rfl rfl (fun call hc ↦ ?_) j)
    rw [List.getElem?_concat_length, Option.some_inj] at hc
    subst hc
    obtain ⟨h1, h2, h3⟩ := (h.node op.server).server.voteRel ha
    exact ⟨h1.le, fun _ _ _ ↦ ⟨h2, h3⟩⟩
  | replicateIdle => exact hsame h
  | @replicateAppend k w args hw ha =>
    refine hsame (h.ask (.replicateAppend hw ha) hσ (by simp) rfl rfl (fun call hc ↦ ?_) w.peer)
    rw [List.getElem?_concat_length, Option.some_inj] at hc
    subst hc
    exact (h.node w.server).server.appendRel h.inv (h.replicator w (List.mem_of_getElem? hw)) ha
  | @replicateInstall k w args hw ha =>
    refine hsame (h.ask (.replicateInstall hw ha) hσ (by simp) rfl rfl (fun call hc ↦ ?_) w.peer)
    rw [List.getElem?_concat_length, Option.some_inj] at hc
    subst hc
    exact (h.node w.server).server.installRel h.inv (h.replicator w (List.mem_of_getElem? hw)) ha
  | deliverVote hc hr hrf => exact h.deliverVote hσ hc hr hrf
  | deliverAppend hc hr hrf => exact h.deliverAppend hσ hc hr hrf
  | deliverInstall hc hr hrf => exact h.deliverInstall hσ hc hr hrf
  | answerVote hc =>
    exact hsee [] (by simp) (by simp) rfl (by simp [Cluster.setRf, Cluster.setNode])
      (by simp) (by simp)
  | countVote hc =>
    exact hsee _ (by simp) (by simp) rfl rfl (by simp [EventRel]) (by simp)
  | elect hc hw hr hop hv hmany =>
    exact h.elect hσ hrole hp (.elect hc hw hr hop hv hmany) hc hv rfl rfl rfl hvote hm
  | answerAppend hc hw hr hrf =>
    exact h.answerAppend hσ (.answerAppend hc hw hr hrf) hc hr hrf rfl (by simp) rfl
  | @answerInstall c k call args reply rf hc hw hr hrf =>
    rcases Raft.helpInstallReply_spec hrf with rfl | ⟨-, m, next, hmatch, -, rfl⟩
    · exact hsee [] (by simp) (by simp) rfl (by simp [Cluster.setRf, Cluster.setNode])
        (by simp) (by simp)
    · have hreq := h.request call (List.mem_of_getElem? hc)
      rw [hr] at hreq
      have hs := (h.node call.caller).server.setMatch hmatch (i := call.callee)
        (some (Function.update next call.callee (args.lastIncludedIndex + 1)))
        (x := args.lastIncludedIndex) fun _ ↦ Or.inl (Int.ofNat_le.mpr hreq.2)
      exact hsame (h.move (P := True) [] (.answerInstall hc hw hr hrf) hσ (by simp)
        (Acts.refl h.inv _) rfl (fun _ _ ↦ Or.inl) (by simp) rfl
        ((h.node _).setRf (Grows.refl g) hs le_rfl)
        (fun _ _ _ ↦ rfl) (by simp [Cluster.setRf, Cluster.setNode]) (by simp) (by simp))
  | @lose c call reps hc hw hreps =>
    refine hsame (h.ask (.lose hc hw hreps) hσ (by simp) rfl rfl (fun call' hc' ↦ ?_) call.caller)
    rw [List.getElem?_eq_none (by simp)] at hc'
    simp at hc'
  | start hs => exact h.start hσ hs
  | startRefused => exact hsame h
  | snapshot hm' hlt he => exact h.snapshot hσ hm' hlt he
  | snapshotOld => exact hsame h
  | @wake a hw hb =>
    have hs : ServerRel g a { (σ.node a).rf with wakeCh := false } := (h.node a).server.congr
      rfl rfl rfl rfl rfl fun hl ↦ ⟨hl, rfl⟩
    exact hsame (h.move (P := True) [] (.wake hw hb) hσ (by simp) (Acts.refl h.inv a) rfl
      (fun _ _ ↦ Or.inl) rfl rfl ⟨hs, (h.node a).msgs⟩ (fun _ _ _ ↦ rfl) (by simp [Cluster.setNode])
      (by simp)
      (by simp))
  | collect hw hk => exact h.collect hσ hw hk
  | @send a m rest hb =>
    exact h.receive hσ (.send hb) (by simp) rest (σ.node a).snapSends
      (by simp [hb]) (by simp [hb]) (fun _ h ↦ h) rfl rfl rfl
  | @sendSnap a k m hm' =>
    exact h.receive hσ (.sendSnap hm') (by simp) (σ.node a).batch
      ((σ.node a).snapSends.eraseIdx k)
      (List.mem_append_right _ (List.mem_of_getElem? hm')) (fun _ h ↦ h)
      (List.eraseIdx_subset) rfl rfl rfl
  | @restart a rf hmake =>
    obtain rfl := hσ.make hmake
    exact hsame (h.move (P := True) _ (.restart hmake) hσ (by simp) (Acts.refl h.inv a) rfl
      (fun _ _ ↦ Or.inl) (by simp) rfl ⟨(h.node a).server.revived, by simp⟩ (fun _ _ _ ↦ rfl) rfl
      (by simp [EventRel]) (by simp))

end Rel

/-! ## Whole runs -/

namespace Cluster

/-- The ledger at the start. -/
def emptyLedger (n : Nat) (Cmd : Type) : RaftLedger n Cmd :=
  ⟨fun _ ↦ 0, fun _ ↦ [], fun _ ↦ [], fun _ ↦ [], fun _ ↦ none, ∅, ∅, ∅⟩

theorem rel_init : Rel (init : Cluster n Cmd) (emptyLedger n Cmd) := by
  constructor
  · constructor <;> simp [emptyLedger, Ledger.log, Ledger.Sealed, Ledger.snap]
  · simp [emptyLedger, Ledger.Kept]
  · intro v
    refine ⟨⟨rfl, ⟨_, rfl, rfl⟩, rfl, Or.inl rfl, le_rfl, fun hs ↦ ?_⟩, ?_⟩
    · simp [init, Raft.fresh] at hs
    · simp [init]
  · simp [init]
  · simp [init]
  · simp [init]
  · simp [init]
  · simp [emptyLedger]
  · simp [emptyLedger]
  · intro before after a i T c heq
    simp [init] at heq

variable [Labgob (Saved n Cmd)]

/-- **The simulation.**  In a run whose elections are won by majorities the cluster is related to a
state of the ledger protocol; where moreover no snapshot is glued to entries that do not continue
it, log matching holds there. -/
theorem rel_of_reach {σ : Cluster n Cmd} {P : Cluster n Cmd → Action n Cmd → Cluster n Cmd → Prop}
    (hP : ∀ σ act σ', P σ act σ' → σ'.MajorityBacked) (h : (machine n Cmd).Reach P σ) :
    ∃ g, Rel σ g ∧ ((∀ σ act σ', P σ act σ' → σ.GluesMatching act) → g.Whole) := by
  refine h.invariant (I := fun σ ↦ ∃ g, Rel σ g ∧
    ((∀ σ act σ', P σ act σ' → σ.GluesMatching act) → g.Whole)) ?_ fun σ act σ' hr hi hs hp ↦ ?_
  · refine ⟨_, rel_init, fun _ v k e he ↦ ?_⟩
    simp [emptyLedger, Ledger.log] at he
  · obtain ⟨g, hg, hwhole⟩ := hi
    have hr' := hr.step hs hp
    obtain ⟨g', hg', hkeep⟩ := hg.step (Trans.of_step hs) (atRest_of_reach hr)
      (roleInv_of_reach hr) (pollInv_of_reach hr) (voteInv_of_reach hr') (hP σ act σ' hp)
    exact ⟨g', hg', fun hglue ↦ hkeep (hglue σ act σ' hp) (hwhole hglue)⟩

end Cluster

end DistLabs
