import DistLabs.Raft.Bounds
import DistLabs.Raft.Replicators

/-!
# One request at a time

As long as no server is elected twice between restarts, at most one request is out to each peer.
Then every request continues where the last match left off, and no peer in the leader's term refuses
it (`SteadyInv`), so that `matchIndex[i]` never decreases while the server leads
(`replication_serial`).

After a second election there are two replicators for each peer, and both send in the name of the
new term.  `serial_broken` is such a run; it goes on until the answers overtake each other, and
`matchIndex` decreases.
-/

set_option autoImplicit false

namespace DistLabs

variable {n : Nat} {Cmd : Type}

/-- The index up to which a peer has the leader's log once it has taken the request. -/
def Rpc.upTo : Rpc n Cmd → Int
  | .vote _ _ _ => 0
  | .append _ args _ => args.prevLogIndex + args.entries.length
  | .install _ args _ => args.lastIncludedIndex

/-- The request continues a match `m`: it starts there, or replaces it by a longer one, and it is
not refused by a peer of its own term. -/
def Rpc.Continues (m : Int) : Rpc n Cmd → Prop
  | .vote _ _ _ => True
  | .append _ args reply => m ≤ 0 ∨ args.prevLogIndex = m ∧
      ∀ r, reply = some r → r.term ≤ args.term → r.success = true
  | .install _ args _ => m ≤ args.lastIncludedIndex

theorem Rpc.continues_of_nonpos {m : Int} (h : m ≤ 0) (rpc : Rpc n Cmd) : rpc.Continues m := by
  cases rpc with
  | vote => trivial
  | append => exact Or.inl h
  | install => exact h.trans (Int.natCast_nonneg _)

theorem Rpc.continues_of_not_replicates {rpc : Rpc n Cmd} (h : ¬ rpc.Replicates) (m : Int) :
    rpc.Continues m := by
  cases rpc with
  | vote => trivial
  | append | install => exact absurd trivial h

theorem Rpc.Continues.le_upTo {m : Int} {rpc : Rpc n Cmd} (h : rpc.Continues m)
    (hrep : rpc.Replicates) : m ≤ rpc.upTo := by
  cases rpc with
  | vote => exact hrep.elim
  | append _ args =>
    change m ≤ args.prevLogIndex + args.entries.length
    rcases h with h | ⟨h, -⟩ <;> omega
  | install => exact h

namespace Cluster

variable [Labgob (Saved n Cmd)] {σ σ' : Cluster n Cmd} {act : Action n Cmd}

/-! ## Requests continue the match -/

/-- What a leader notes for a peer and what it asks it fit together. -/
structure SteadyInv (σ : Cluster n Cmd) : Prop where
  /-- A leader goes on right after the match. -/
  cells : ∀ a, (σ.node a).rf.state = .leader → ∀ next m, (σ.node a).rf.nextIndex = some next →
    (σ.node a).rf.matchIndex = some m → ∀ i, i ≠ a → m i ≤ 0 ∨ next i = m i + 1
  /-- What it waits for continues the match. -/
  sent : ∀ call ∈ σ.calls, call.waiting = true → (σ.node call.caller).rf.state = .leader →
    ∀ m, (σ.node call.caller).rf.matchIndex = some m → call.rpc.Continues (m call.callee)

/-- **How the match of a leader changes**: by the answer to a request, to the end of that request.
-/
theorem Trans.match_cases (h : Trans σ act σ') (hσ : σ.AtRest) {a : Fin n}
    (hs : (σ.node a).rf.state = .leader) (hs' : (σ'.node a).rf.state = .leader) {m' : Fin n → Int}
    (hm' : (σ'.node a).rf.matchIndex = some m') :
    ∃ m, (σ.node a).rf.matchIndex = some m ∧ ∀ i, m' i = m i ∨
      ∃ c call, act = .answer c ∧ σ.calls[c]? = some call ∧ call.waiting = true ∧ call.caller = a ∧
        call.callee = i ∧ call.rpc.Replicates ∧ m' i = call.rpc.upTo := by
  -- an answer writes the cell of its peer, and no other one
  have hwrite : ∀ {c : Nat} {call : Call n Cmd} {v : Int} (m : Fin n → Int), act = .answer c →
      σ.calls[c]? = some call → call.waiting = true → call.caller = a → call.rpc.Replicates →
      v = call.rpc.upTo → ∀ i, Function.update m call.callee v i = m i ∨
        ∃ c call', act = .answer c ∧ σ.calls[c]? = some call' ∧ call'.waiting = true ∧
          call'.caller = a ∧ call'.callee = i ∧ call'.rpc.Replicates ∧
          Function.update m call.callee v i = call'.rpc.upTo := by
    intro c call v m hact hc hw ha hrep hv i
    by_cases hi : i = call.callee
    · subst hi
      exact Or.inr ⟨c, call, hact, hc, hw, ha, rfl, hrep, by rw [Function.update_self, hv]⟩
    · exact Or.inl (Function.update_of_ne hi _ _)
  have hcells := h.cells hσ a
  generalize (σ'.node a).rf = rf' at hcells hs' hm'
  cases hcells with
  | kept _ hkeep => exact ⟨m', hkeep ▸ hm', fun i ↦ Or.inl rfl⟩
  | elected hc => exact absurd (hs.symm.trans hc) (by simp)
  | restarted _ hrf =>
    rw [hrf] at hs'
    simp [Raft.revived, Raft.fresh] at hs'
  | refused _ _ _ _ _ _ _ _ _ _ _ hrf =>
    rw [hrf] at hm'
    exact ⟨m', hm', fun i ↦ Or.inl rfl⟩
  | @matched c k call args reply next m hact hc hw hr ha _ _ _ _ hm _ hmatch' _ =>
    rw [hmatch', Option.some_inj] at hm'
    subst hm'
    exact ⟨m, hm, hwrite m hact hc hw ha (by rw [hr]; trivial) (by rw [hr]; rfl)⟩
  | @installed c k call args reply next m hact hc hw hr ha _ _ hm hrf =>
    rw [hrf, Option.some_inj] at hm'
    subst hm'
    exact ⟨m, hm, hwrite m hact hc hw ha (by rw [hr]; trivial) (by rw [hr]; rfl)⟩

variable {g : RaftLedger n Cmd}

/-- **A match is not refused**: a peer that is not in a later term has the entry it is asked for. -/
theorem Matched.not_refused (hg : Rel σ g) {a i : Fin n} {rf' : Raft n Cmd}
    {args : AppendEntriesArgs n Cmd} {reply : AppendEntriesReply}
    (hm : σ.Matched i (σ.node a).rf.currentTerm args.prevLogIndex)
    (hs : (σ.node a).rf.state = .leader) (hpos : 0 < args.prevLogIndex)
    (hterm : args.term = (σ.node a).rf.currentTerm) (hreq : AppendRel g a i args)
    (h : (σ.node i).rf.appendEntries args = some (rf', reply)) (hle : reply.term ≤ args.term) :
    reply.success = true := by
  have hserver := (hg.node i).server
  by_contra hno
  rcases Raft.appendEntries_spec h with ⟨rfl, href⟩ | ⟨hok, -⟩
  swap
  · exact hno hok
  have hcur : (σ.node i).rf.currentTerm ≤ args.term := by
    have : ((σ.node i).rf.heedLeader args.term).currentTerm ≤ args.term := by
      rcases href with ⟨-, rfl⟩ | ⟨-, rfl⟩ | ⟨prev, x, -, -, -, rfl⟩ <;> exact hle
    rw [Raft.heedLeader_currentTerm] at this
    omega
  have hlt : (σ.node i).rf.snapIndex < args.prevLogIndex := by
    by_contra hcov
    exact hno (Raft.appendEntries_covered h hcur (not_lt.mp hcov))
  obtain ⟨e, hea, hei⟩ := hm.agree hg hs hpos le_rfl (Or.inl (hterm ▸ hcur))
  have hget : (σ.node i).rf.get args.prevLogIndex = some e := by rw [hserver.get_eq hlt, hei]
  -- the term that is compared with is that of the entry in the leader's log
  have hprev : args.prevLogTerm = e.term :=
    hreq.prevLogTerm_eq hpos (by rw [hterm, ((hg.node a).server.leader hs).log, hea])
  rcases href with ⟨hlt', -⟩ | ⟨hlen, -⟩ | ⟨prev, x, hprev', hne, -⟩
  · rw [Raft.heedLeader_currentTerm] at hlt'
    omega
  · have := Raft.get_lt_logLength hget
    rw [Raft.heedLeader_logLength] at hlen
    omega
  · rw [Raft.heedLeader_get, hget, Option.some_inj] at hprev'
    exact hne (hprev' ▸ hprev.symm)

/-- Whoever gets an answer stops waiting for it. -/
theorem Trans.answer_waiting {c : Nat} {call' : Call n Cmd} (h : Trans σ (.answer c) σ')
    (hc' : σ'.calls[c]? = some call') : call'.waiting = false := by
  have hset : ∀ {call : Call n Cmd},
      (σ.calls.set c { call with waiting := false })[c]? = some call' →
      call'.waiting = false := by
    intro call hc
    rcases List.getElem?_set_cases hc with ⟨-, rfl⟩ | ⟨hne, -⟩
    · rfl
    · exact absurd rfl hne
  cases h with
  | answerVote | countVote | elect | answerAppend | answerInstall => exact hset hc'

/-- A match that is written, with the next index right after it, leaves the other cells as they
were. -/
theorem update_steady {next m : Fin n → Int} {i : Fin n} (j : Fin n) (v : Int)
    (h : m i ≤ 0 ∨ next i = m i + 1) :
    Function.update m j v i ≤ 0 ∨
      Function.update next j (v + 1) i = Function.update m j v i + 1 := by
  by_cases hij : i = j
  · subst hij
    rw [Function.update_self, Function.update_self]
    exact Or.inr rfl
  · rw [Function.update_of_ne hij, Function.update_of_ne hij]
    exact h

namespace SteadyInv

theorem cells_step (hi : σ.SteadyInv) (h : Trans σ act σ') (hσ : σ.AtRest) (a : Fin n)
    (hs' : (σ'.node a).rf.state = .leader) (next' m' : Fin n → Int)
    (hn' : (σ'.node a).rf.nextIndex = some next') (hm' : (σ'.node a).rf.matchIndex = some m')
    (i : Fin n) (hia : i ≠ a) : m' i ≤ 0 ∨ next' i = m' i + 1 := by
  rcases h.leader_cases hσ hs' with ⟨hs, -⟩ | ⟨-, hrf⟩
  swap
  · rw [hrf, Raft.becomeLeader, Option.some_inj] at hm'
    subst hm'
    left
    dsimp only
    split <;> simp
  have hcells := h.cells hσ a
  generalize (σ'.node a).rf = rf' at hcells hs' hn' hm'
  cases hcells with
  | kept hnext hmatch => exact hi.cells a hs next' m' (hnext ▸ hn') (hmatch ▸ hm') i hia
  | elected hc => exact absurd (hs.symm.trans hc) (by simp)
  | restarted _ hrf =>
    rw [hrf] at hs'
    simp [Raft.revived, Raft.fresh] at hs'
  | @refused c k call args reply next v hact hc hw hr ha hno hlead hterm hle hn hv hrf =>
    subst ha hrf
    rw [Option.some_inj] at hn'
    subst hn'
    by_cases hcall : i = call.callee
    · -- only a request without a match is refused
      have hsent := hi.sent call (List.mem_of_getElem? hc) hw hlead m' hm'
      rw [hr] at hsent
      rcases hsent with hzero | ⟨-, hok⟩
      · exact Or.inl (hcall ▸ hzero)
      · rw [hok reply rfl (hterm ▸ hle)] at hno
        simp at hno
    · rw [Function.update_of_ne hcall]
      exact hi.cells _ hs next m' hn hm' i hia
  | @matched c k call args reply next m _ _ _ _ _ _ _ _ hn hm hnext hmatch _ =>
    rw [hnext, Option.some_inj] at hn'
    rw [hmatch, Option.some_inj] at hm'
    subst hn' hm'
    exact update_steady call.callee _ (hi.cells a hs next m hn hm i hia)
  | @installed c k call args reply next m _ _ _ _ _ _ hn hm hrf =>
    subst hrf
    rw [Option.some_inj] at hn' hm'
    subst hn' hm'
    exact update_steady call.callee _ (hi.cells a hs next m hn hm i hia)

omit [Labgob (Saved n Cmd)] in
/-- A new request starts where the match ends, or is a snapshot that goes beyond it. -/
theorem continues_of_requests (hi : σ.SteadyInv) {call : Call n Cmd} (h : Requests σ σ' call)
    (hpeer : ∀ w ∈ σ.replicators, w.peer ≠ w.server) {m : Fin n → Int}
    (hm : (σ.node call.caller).rf.matchIndex = some m) : call.rpc.Continues (m call.callee) := by
  cases h with
  | vote => trivial
  | @append k w args hw ha =>
    obtain ⟨next, hn, hprev⟩ := Raft.singleAppend_next ha
    have hs := (Raft.singleAppend_append ha).1
    rcases hi.cells _ hs next m hn hm w.peer (hpeer w (List.mem_of_getElem? hw)) with hz | hnext
    · exact Or.inl hz
    · refine Or.inr ⟨?_, by simp⟩
      change (args.prevLogIndex : Int) = m w.peer
      omega
  | @install k w args hw ha =>
    obtain ⟨next, hn, hprev⟩ := Raft.singleAppend_next ha
    have hs := (Raft.singleAppend_install ha).1
    change m w.peer ≤ args.lastIncludedIndex
    rcases hi.cells _ hs next m hn hm w.peer (hpeer w (List.mem_of_getElem? hw)) with hz | hnext
    · omega
    · dsimp only at hprev
      omega

/-- The handler's reply to a request that continues a match does not refuse it. -/
theorem continues_of_replies (hi : σ.SteadyInv) {call : Call n Cmd} {rpc : Rpc n Cmd}
    (h : Replies σ σ' call rpc) (hmem : call ∈ σ.calls) (hw : call.waiting = true)
    (hs : (σ.node call.caller).rf.state = .leader) (hown : σ.OwnInv) (hmat : σ.MatchInv)
    (hg : Rel σ g) {m : Fin n → Int} (hm : (σ.node call.caller).rf.matchIndex = some m) :
    rpc.Continues (m call.callee) := by
  have hsent := hi.sent call hmem hw hs m hm
  cases h with
  | vote => trivial
  | install hr =>
    rw [hr] at hsent
    exact hsent
  | @append k args reply hr hrf =>
    have hterm := hown call hmem hw (by rw [hr]; trivial) hs
    have hreq := hg.request call hmem
    rw [hr] at hsent hterm hreq
    rcases hsent with hz | ⟨hprev, -⟩
    · exact Or.inl hz
    rcases le_or_gt (m call.callee) 0 with hz | hpos
    · exact Or.inl hz
    refine Or.inr ⟨hprev, fun r hr' hle ↦ ?_⟩
    obtain rfl := Option.some_inj.mp hr'
    have hmatch := hmat.matched _ hs m hm call.callee (AppendRel.other hreq)
    rw [← hprev] at hmatch
    exact hmatch.not_refused hg hs (by omega) hterm hreq hrf hle

theorem sent_step (hi : σ.SteadyInv) (h : Trans σ act σ') (hσ : σ.AtRest) (hser : σ.SerialInv)
    (hown : σ.OwnInv) (hmat : σ.MatchInv) (hg : Rel σ g) (call' : Call n Cmd)
    (hmem : call' ∈ σ'.calls) (hw : call'.waiting = true)
    (hs' : (σ'.node call'.caller).rf.state = .leader) (m' : Fin n → Int)
    (hm' : (σ'.node call'.caller).rf.matchIndex = some m') :
    call'.rpc.Continues (m' call'.callee) := by
  obtain ⟨c, hc'⟩ := List.mem_iff_getElem?.mp hmem
  rcases h.leader_cases hσ hs' with ⟨hs, -⟩ | ⟨-, hrf⟩
  swap
  · rw [hrf, Raft.becomeLeader, Option.some_inj] at hm'
    subst hm'
    refine Rpc.continues_of_nonpos ?_ _
    dsimp only
    split <;> simp
  by_cases hrep : call'.rpc.Replicates
  swap
  · exact Rpc.continues_of_not_replicates hrep _
  obtain ⟨m, hm, hcases⟩ := h.match_cases hσ hs hs' hm'
  -- the match is that of an answer only if this was the request that is out, and then it is no
  -- longer
  have hkeep : ∀ call, σ.calls[c]? = some call → call.waiting = true → call.rpc.Replicates →
      call'.caller = call.caller → call'.callee = call.callee → m' call.callee = m call.callee := by
    intro call hc hwait hr hcaller hcallee
    refine (hcases _).resolve_right ?_
    rintro ⟨c₀, call₀, rfl, hc₀, hw₀, ha₀, hi₀, hr₀, -⟩
    obtain ⟨k, hk⟩ := Rpc.replicates_iff.mp hr
    obtain ⟨k₀, hk₀⟩ := Rpc.replicates_iff.mp hr₀
    obtain rfl := hser.runs_unique ⟨call, hc, hwait, hk, rfl, rfl⟩
      ⟨call₀, hc₀, hw₀, hk₀, ha₀.trans hcaller, hi₀⟩
    rw [h.answer_waiting hc'] at hw
    simp at hw
  rcases h.call_cases hc' with ⟨call, hc, hk⟩ | ⟨-, hreq, hn⟩ | ⟨call, -, hc, hr, h1, h2, h3⟩
  · rw [hk.callee, hkeep call hc (hk.waiting hw) (hk.rpc ▸ hrep) hk.caller hk.callee, hk.rpc]
    rw [hk.caller] at hs hm
    exact hi.sent call (List.mem_of_getElem? hc) (hk.waiting hw) hs m hm
  · rw [hn] at hm'
    exact hi.continues_of_requests hreq hg.replicator hm'
  · rw [h2, hkeep call hc (h3 ▸ hw) (hr.same.2 hrep) h1 h2]
    rw [h1] at hs hm
    exact hi.continues_of_replies hr (List.mem_of_getElem? hc) (h3 ▸ hw) hs hown hmat hg hm

/-- **No step of a leadership takes a match back.** -/
theorem match_le (hi : σ.SteadyInv) (h : Trans σ act σ') (hσ : σ.AtRest) {a : Fin n}
    (hs : (σ.node a).rf.state = .leader) (hs' : (σ'.node a).rf.state = .leader)
    {m' : Fin n → Int} (hm' : (σ'.node a).rf.matchIndex = some m') :
    ∃ m, (σ.node a).rf.matchIndex = some m ∧ ∀ i, m i ≤ m' i := by
  obtain ⟨m, hm, hcases⟩ := h.match_cases hσ hs hs' hm'
  refine ⟨m, hm, fun i ↦ ?_⟩
  rcases hcases i with heq | ⟨c, call, -, hc, hw, rfl, rfl, hrep, heq⟩
  · exact heq.ge
  · rw [heq]
    exact (hi.sent call (List.mem_of_getElem? hc) hw hs m hm).le_upTo hrep

end SteadyInv

section Runs

variable {P : Cluster n Cmd → Action n Cmd → Cluster n Cmd → Prop}
  (hP : ∀ σ act σ', P σ act σ' → σ'.MajorityBacked ∧ σ.ElectsFresh σ')
include hP

theorem steadyInv_of_reach (h : (machine n Cmd).Reach P σ) : σ.SteadyInv := by
  refine h.invariant (I := SteadyInv) ?_ fun σ act σ' hr hi hs hp ↦ ?_
  · constructor <;> simp [machine, init, Raft.fresh]
  · have hfresh : ∀ σ act σ', P σ act σ' → σ.ElectsFresh σ' := fun _ _ _ hp ↦ (hP _ _ _ hp).2
    obtain ⟨g, hg, -⟩ := rel_of_reach (fun _ _ _ hp ↦ (hP _ _ _ hp).1) hr
    have haccept : (machine n Cmd).Reach (fun σ act _ ↦ σ.TakesAccepted act) σ :=
      hr.strengthen fun _ _ _ hr hs _ ↦ (ownInv_of_reach hfresh hr).takesAccepted hs
    have ht := Trans.of_step hs
    have hσ := atRest_of_reach hr
    exact ⟨hi.cells_step ht hσ, hi.sent_step ht hσ (serialInv_of_reach hfresh hr)
      (ownInv_of_reach hfresh hr) (matchInv_of_reach (fun _ _ _ hp ↦ hp) haccept) hg⟩

/-- From a state in which server `a` leads a term, a run takes it to a later term, or ends the
leadership, or has not decreased the match of any peer. -/
theorem match_mono_of_reach {σ₀ : Cluster n Cmd} (h₀ : (machine n Cmd).Reach P σ₀)
    (h : ((machine n Cmd).startingAt σ₀).Reach P σ) {a : Fin n}
    (hs₀ : (σ₀.node a).rf.state = .leader) {m₀ : Fin n → Int}
    (hm₀ : (σ₀.node a).rf.matchIndex = some m₀) :
    (σ₀.node a).rf.currentTerm < (σ.node a).rf.currentTerm ∨
    (σ.node a).rf.currentTerm = (σ₀.node a).rf.currentTerm ∧ ((σ.node a).rf.state = .follower ∨
      (σ.node a).rf.state = .leader ∧
        ∃ m, (σ.node a).rf.matchIndex = some m ∧ ∀ i, m₀ i ≤ m i) := by
  refine h.invariant (I := fun σ ↦ (σ₀.node a).rf.currentTerm < (σ.node a).rf.currentTerm ∨
    (σ.node a).rf.currentTerm = (σ₀.node a).rf.currentTerm ∧ ((σ.node a).rf.state = .follower ∨
      (σ.node a).rf.state = .leader ∧
        ∃ m, (σ.node a).rf.matchIndex = some m ∧ ∀ i, m₀ i ≤ m i))
    (Or.inr ⟨rfl, Or.inr ⟨hs₀, m₀, hm₀, fun _ ↦ le_rfl⟩⟩) fun σ act σ' hr hi hs hp ↦ ?_
  have hreach := h₀.append hr
  have ht := Trans.of_step hs
  have hσ := atRest_of_reach hreach
  have hmono := (ht.evolves hσ a).term
  rcases hi with hlt | ⟨heq, hrole⟩
  · exact Or.inl (by omega)
  rcases lt_or_eq_of_le (heq ▸ hmono) with hlt | hsame
  · exact Or.inl hlt
  refine Or.inr ⟨hsame.symm, ?_⟩
  -- in the same term nobody becomes a candidate, so who leads has been leading
  rcases ht.role hσ a with (hf | ⟨hst, -⟩) | ⟨hrf, -⟩ | ⟨hcand, -⟩
  · exact Or.inl hf
  · rcases hrole with hf | ⟨hl, m, hm, hle⟩
    · exact Or.inl (hst.trans hf)
    · have hl' := hst.trans hl
      have hnew := hreach.step hs hp
      obtain ⟨m', hm'⟩ := ((ledInv_of_reach hnew).leader a hl').matched
      obtain ⟨m₁, hm₁, hle'⟩ := (steadyInv_of_reach hP hreach).match_le ht hσ hl hl' hm'
      obtain rfl := Option.some_inj.mp (hm.symm.trans hm₁)
      exact Or.inr ⟨hl', m', hm', fun i ↦ (hle i).trans (hle' i)⟩
  · rw [hrf] at hsame
    change _ = (σ.node a).rf.currentTerm + 1 at hsame
    omega
  · rcases hrole with hf | ⟨hl, -⟩
    · exact absurd (hf.symm.trans hcand) (by simp)
    · exact absurd (hl.symm.trans hcand) (by simp)

end Runs

/-- **Replication to one peer is serial**, in the runs in which no server is elected a second time
between two restarts: a server has at most one request of its current term out to each peer.  If the
elections are won by majorities as well, `matchIndex[i]` is never smaller later in a term of
leadership than earlier. -/
theorem replication_serial :
    (∀ σ, (machine n Cmd).Reach (fun σ _ σ' ↦ σ.ElectsFresh σ') σ →
      ∀ a i c c', σ.Outstanding a i c → σ.Outstanding a i c' → c = c') ∧
    ∀ σ σ', (machine n Cmd).Reach (fun σ _ σ' ↦ σ'.MajorityBacked ∧ σ.ElectsFresh σ') σ →
      ((machine n Cmd).startingAt σ).Reach (fun σ _ σ' ↦ σ'.MajorityBacked ∧ σ.ElectsFresh σ') σ' →
      ∀ a, (σ.node a).rf.state = .leader → (σ'.node a).rf.state = .leader →
        (σ'.node a).rf.currentTerm = (σ.node a).rf.currentTerm →
        ∀ m m', (σ.node a).rf.matchIndex = some m → (σ'.node a).rf.matchIndex = some m' →
          ∀ i, m i ≤ m' i := by
  constructor
  · intro σ h a i c c' hc hc'
    obtain ⟨k, hk⟩ := hc.runs
    obtain ⟨k', hk'⟩ := hc'.runs
    exact (serialInv_of_reach (fun _ _ _ hp ↦ hp) h).runs_unique hk hk'
  · intro σ σ' h h' a hs hs' hterm m m' hm hm' i
    rcases match_mono_of_reach (fun _ _ _ hp ↦ hp) h h' hs hm with
      hlt | ⟨-, hf | ⟨-, m₁, hm₁, hle⟩⟩
    · omega
    · exact absurd (hs'.symm.trans hf) (by simp)
    · obtain rfl := Option.some_inj.mp (hm'.symm.trans hm₁)
      exact hle i

/-- In the run to the first commit the request to server `1` is the only one, and its match goes
from `0` to `1`. -/
theorem replication_serial_firstCommit :
    (∃ σ : Cluster 3 Nat, (machine 3 Nat).Reach (fun σ _ σ' ↦ σ.ElectsFresh σ') σ ∧
      σ.Outstanding 0 1 1 ∧ ∀ c, σ.Outstanding 0 1 c → c = 1) ∧
    ∃ σ σ' : Cluster 3 Nat, ∃ m m', (σ.node 0).rf.matchIndex = some m ∧
      (σ'.node 0).rf.matchIndex = some m' ∧ m 1 = 0 ∧ m' 1 = 1 ∧ ∀ i, m i ≤ m' i := by
  constructor
  · obtain ⟨σ, hσ, hout⟩ := Machine.exists_reach_of_exec (M := machine 3 Nat)
      (P := fun σ _ σ' ↦ σ.ElectsFresh σ') (Q := fun σ ↦ σ.Outstanding 0 1 1)
      (firstElection ++ [.start 0 (some 10), .replicate 0]) (by decide +kernel)
    exact ⟨σ, hσ, hout, fun c hc ↦ replication_serial.1 σ hσ 0 1 c 1 hc hout⟩
  · obtain ⟨σ, hσ, hs, ⟨m, hm, h0⟩, σ', hσ', hs', hT, m', hm', h1⟩ :=
      Machine.exists_reach_of_exec (M := machine 3 Nat)
        (P := fun σ _ σ' ↦ σ'.MajorityBacked ∧ σ.ElectsFresh σ')
        (Q := fun σ ↦ (σ.node 0).rf.state = .leader ∧ (∃ m ∈ (σ.node 0).rf.matchIndex, m 1 = 0) ∧
          ∃ σ' ∈ ((machine 3 Nat).startingAt σ).exec
              (fun σ _ σ' ↦ σ'.MajorityBacked ∧ σ.ElectsFresh σ') σ
              [.start 0 (some 10), .replicate 0, .deliver 1, .answer 1],
            (σ'.node 0).rf.state = .leader ∧
            (σ'.node 0).rf.currentTerm = (σ.node 0).rf.currentTerm ∧
            ∃ m ∈ (σ'.node 0).rf.matchIndex, m 1 = 1)
        firstElection (by decide +kernel)
    exact ⟨σ, σ', m, m', hm, hm', h0, h1, replication_serial.2 σ σ' hσ (Machine.reach_of_exec hσ') 0
      hs hs' hT m m' hm hm'⟩

/-- Server `0` is elected in term `1`.  Server `1` becomes a candidate of term `2`, which ends the
leadership, but it is server `0` that wins term `3`, and now has two replicators for server `1`.
Both of them send: one before and one after the second `Start`. -/
def twoLeaderships : List (Action 3 Nat) :=
  firstElection ++ [.tick 1, .askVote 1 0, .deliver 1, .tick 0, .askVote 2 1, .deliver 2, .answer 2,
    .start 0 (some 10), .replicate 0, .start 0 (some 11), .replicate 2]

/-- **Replication is not serial**: server `0` has two requests of term `3` out to server `1`.  When
the answer to the second one arrives first, `matchIndex[1]` goes to `2`, and then back to `1`. -/
theorem serial_broken :
    ∃ σ σ₁ σ₂ : Cluster 3 Nat, (machine 3 Nat).Reach (fun _ _ σ' ↦ σ'.MajorityBacked) σ ∧
      σ.Outstanding 0 1 3 ∧ σ.Outstanding 0 1 4 ∧
      ((machine 3 Nat).startingAt σ).Reach (fun _ _ σ' ↦ σ'.MajorityBacked) σ₁ ∧
      σ₁.step (.answer 3) = some σ₂ ∧ σ₂.MajorityBacked ∧
      (σ₁.node 0).rf.state = .leader ∧ (σ₂.node 0).rf.state = .leader ∧
      (σ₂.node 0).rf.currentTerm = (σ₁.node 0).rf.currentTerm ∧
      (∃ m ∈ (σ₁.node 0).rf.matchIndex, m 1 = 2) ∧ ∃ m ∈ (σ₂.node 0).rf.matchIndex, m 1 = 1 := by
  obtain ⟨σ, hσ, h3, h4, σ₁, hσ₁, σ₂, hs, hrest⟩ :=
    Machine.exists_reach_of_exec (M := machine 3 Nat) (P := fun _ _ σ' ↦ σ'.MajorityBacked)
      (Q := fun σ ↦ σ.Outstanding 0 1 3 ∧ σ.Outstanding 0 1 4 ∧
        ∃ σ₁ ∈ ((machine 3 Nat).startingAt σ).exec (fun _ _ σ' ↦ σ'.MajorityBacked) σ
            [.deliver 3, .deliver 4, .answer 4],
          ∃ σ₂ ∈ σ₁.step (.answer 3), σ₂.MajorityBacked ∧
            (σ₁.node 0).rf.state = .leader ∧ (σ₂.node 0).rf.state = .leader ∧
            (σ₂.node 0).rf.currentTerm = (σ₁.node 0).rf.currentTerm ∧
            (∃ m ∈ (σ₁.node 0).rf.matchIndex, m 1 = 2) ∧
            ∃ m ∈ (σ₂.node 0).rf.matchIndex, m 1 = 1)
      twoLeaderships (by decide +kernel)
  exact ⟨σ, σ₁, σ₂, hσ, h3, h4, Machine.reach_of_exec hσ₁, hs, hrest⟩

end Cluster

end DistLabs
