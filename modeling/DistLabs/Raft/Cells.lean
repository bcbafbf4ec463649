import DistLabs.Raft.Simulation

/-!
# What a leader notes about its followers

`nextIndex` and `matchIndex` are made by `becomeLeader` and from then on written by the answers to
replication requests.  `CellsStep` lists what an action can do to the two arrays of one server; the
bounds on `nextIndex`, the meaning of `matchIndex` and its monotonicity are all read off it.

Two facts every use of it needs are here too: a server with a replication request out has the two
arrays (`LedInv`), and while a server leads its log only grows (`Trans.leader_logLength`).
-/

set_option autoImplicit false

namespace DistLabs

variable {n : Nat} {Cmd : Type}

/-- The server has led in this incarnation: the two arrays are there. -/
structure Raft.HasLed (rf : Raft n Cmd) : Prop where
  /-- `nextIndex` is. -/
  next : ∃ next, rf.nextIndex = some next
  /-- `matchIndex` is. -/
  matched : ∃ m, rf.matchIndex = some m

/-- An `AppendEntries` or an `InstallSnapshot`. -/
def Rpc.Replicates : Rpc n Cmd → Prop
  | .vote _ _ _ => False
  | .append _ _ _ | .install _ _ _ => True

namespace Cluster

variable [Labgob (Saved n Cmd)]

/-! ## The two arrays -/

/-- What an action does to `nextIndex` and `matchIndex` of server `a`, which becomes `rf'`. -/
inductive CellsStep (σ : Cluster n Cmd) (act : Action n Cmd) (a : Fin n) (rf' : Raft n Cmd) : Prop
  /-- Nothing. -/
  | kept (hnext : rf'.nextIndex = (σ.node a).rf.nextIndex)
      (hmatch : rf'.matchIndex = (σ.node a).rf.matchIndex) : CellsStep σ act a rf'
  /-- The server is elected. -/
  | elected (hs : (σ.node a).rf.state = .candidate) (h : rf' = (σ.node a).rf.becomeLeader) :
      CellsStep σ act a rf'
  /-- The server restarts. -/
  | restarted (hact : act = .restart a) (h : rf' = (σ.node a).rf.revived) : CellsStep σ act a rf'
  /-- A peer has refused its entries. -/
  | refused {c k : Nat} {call : Call n Cmd} {args : AppendEntriesArgs n Cmd}
      {reply : AppendEntriesReply} {next : Fin n → Int} {v : Int} (hact : act = .answer c)
      (hc : σ.calls[c]? = some call) (hw : call.waiting = true)
      (hr : call.rpc = .append k args (some reply)) (ha : call.caller = a)
      (hno : reply.success = false) (hlead : (σ.node a).rf.state = .leader)
      (hterm : (σ.node a).rf.currentTerm = args.term)
      (hle : reply.term ≤ (σ.node a).rf.currentTerm)
      (hnext : (σ.node a).rf.nextIndex = some next) (hv : (σ.node a).rf.BackTo reply v)
      (h : rf' = { (σ.node a).rf with
        nextIndex := some (Function.update next call.callee v) }) : CellsStep σ act a rf'
  /-- A peer has taken its entries. -/
  | matched {c k : Nat} {call : Call n Cmd} {args : AppendEntriesArgs n Cmd}
      {reply : AppendEntriesReply} {next m : Fin n → Int} (hact : act = .answer c)
      (hc : σ.calls[c]? = some call) (hw : call.waiting = true)
      (hr : call.rpc = .append k args (some reply)) (ha : call.caller = a)
      (hok : reply.success = true) (hlead : (σ.node a).rf.state = .leader)
      (hterm : (σ.node a).rf.currentTerm = args.term)
      (hnext : (σ.node a).rf.nextIndex = some next) (hmatch : (σ.node a).rf.matchIndex = some m)
      (hnext' : rf'.nextIndex =
        some (Function.update next call.callee (args.prevLogIndex + args.entries.length + 1)))
      (hmatch' : rf'.matchIndex =
        some (Function.update m call.callee (args.prevLogIndex + args.entries.length)))
      (hlen : rf'.logLength = (σ.node a).rf.logLength) : CellsStep σ act a rf'
  /-- A peer has answered its snapshot. -/
  | installed {c k : Nat} {call : Call n Cmd} {args : InstallSnapshotArgs n} {reply : Int}
      {next m : Fin n → Int} (hact : act = .answer c) (hc : σ.calls[c]? = some call)
      (hw : call.waiting = true) (hr : call.rpc = .install k args (some reply))
      (ha : call.caller = a) (hle : reply ≤ (σ.node a).rf.currentTerm)
      (hnext : (σ.node a).rf.nextIndex = some next) (hmatch : (σ.node a).rf.matchIndex = some m)
      (h : rf' = { (σ.node a).rf with
        nextIndex := some (Function.update next call.callee (args.lastIncludedIndex + 1))
        matchIndex := some (Function.update m call.callee args.lastIncludedIndex) }) :
      CellsStep σ act a rf'

variable {σ σ' : Cluster n Cmd} {act : Action n Cmd}

/-- **These are all the ways in which the arrays change.** -/
theorem Trans.cells (h : Trans σ act σ') (hσ : σ.AtRest) (a : Fin n) :
    CellsStep σ act a (σ'.node a).rf := by
  have hsame : ∀ {b : Fin n}, CellsStep σ act b (σ.node b).rf := .kept rfl rfl
  have hone : ∀ {b : Fin n} {nd : Node n Cmd}, CellsStep σ act b nd.rf →
      CellsStep σ act a ((σ.setNode b nd).node a).rf := fun hb ↦
    forall_setNode (P := fun x nd ↦ CellsStep σ act x nd.rf) hb (fun _ ↦ hsame) a
  cases h with
  | askVote | replicateIdle | replicateAppend | replicateInstall | lose | startRefused
  | snapshotOld => exact hsame
  | tick | start | snapshot | wake | send | sendSnap => exact hone (.kept rfl rfl)
  | deliverVote _ _ hr =>
    rcases (Raft.requestVote_spec hr).2 with ⟨-, rfl⟩ | ⟨-, -, -, -, rfl⟩
    · exact hone (.kept (by simp) (by simp))
    · exact hone (.kept (by simp [Raft.persist]) (by simp [Raft.persist]))
  | deliverAppend _ _ hr =>
    rcases Raft.appendEntries_spec hr with ⟨rfl, -⟩ | ⟨-, -, -, -, w, rf₁, hrf₁, rfl⟩
    · exact hone (.kept (by simp) (by simp))
    · rcases hrf₁ with ⟨rfl, -⟩ | rfl
      · exact hone (.kept (by simp) (by simp))
      · exact hone (.kept (by simp [Raft.persist]) (by simp [Raft.persist]))
  | deliverInstall _ _ hr =>
    rcases (Raft.installSnapshot_spec hr).2 with ⟨-, rfl, -⟩ | ⟨-, -, ⟨-, -, rfl⟩ | ⟨-, -, rfl⟩⟩
    · exact hone (.kept (by simp) (by simp))
    all_goals
      exact hone (.kept (by simp [Raft.restored, Raft.persist])
        (by simp [Raft.restored, Raft.persist]))
  | answerVote | countVote => exact hone (.kept (by simp) (by simp))
  | elect _ _ _ _ hv => exact hone (.elected (Raft.countsVote_spec hv).2.1 rfl)
  | answerAppend hc hw hr hrf =>
    rcases Raft.singleAppendReply_spec hrf with rfl |
      ⟨hno, hterm, hlead, hle, next, v, hnext, hv, rfl⟩ |
      ⟨hok, hterm, hlead, m, next, rf₁, hm, hnext, rfl, rfl | ⟨M, e, q, -, -, -, -, -, -, rfl⟩⟩
    · exact hone (.kept (by simp) (by simp))
    · exact hone (.refused rfl hc hw hr rfl hno hlead hterm hle hnext hv rfl)
    · exact hone (.matched rfl hc hw hr rfl hok hlead hterm hnext hm rfl rfl rfl)
    · exact hone (.matched rfl hc hw hr rfl hok hlead hterm hnext hm rfl rfl rfl)
  | answerInstall hc hw hr hrf =>
    rcases Raft.helpInstallReply_spec hrf with rfl | ⟨hle, m, next, hm, hnext, rfl⟩
    · exact hone (.kept (by simp) (by simp))
    · exact hone (.installed rfl hc hw hr rfl hle hnext hm rfl)
  | collect _ hk =>
    obtain ⟨rfl, -⟩ := Raft.guardKick_spec hk
    exact hone (.kept rfl rfl)
  | @restart b rf hmake =>
    obtain rfl := hσ.make hmake
    exact hone (.restarted rfl rfl)

/-! ## Who has the arrays -/

omit [Labgob (Saved n Cmd)] in
theorem CellsStep.hasLed {a : Fin n} {rf' : Raft n Cmd} (h : CellsStep σ act a rf')
    (hl : (σ.node a).rf.HasLed) (hre : act ≠ .restart a) : rf'.HasLed := by
  cases h with
  | kept hnext hmatch => exact ⟨hnext ▸ hl.next, hmatch ▸ hl.matched⟩
  | elected _ h => exact h ▸ ⟨⟨_, rfl⟩, ⟨_, rfl⟩⟩
  | restarted hact => exact absurd hact hre
  | refused _ _ _ _ _ _ _ _ _ _ _ h => exact h ▸ ⟨⟨_, rfl⟩, hl.matched⟩
  | matched _ _ _ _ _ _ _ _ _ _ hnext' hmatch' => exact ⟨⟨_, hnext'⟩, ⟨_, hmatch'⟩⟩
  | installed _ _ _ _ _ _ _ _ h => exact h ▸ ⟨⟨_, rfl⟩, ⟨_, rfl⟩⟩

/-- A leader was one before, in the same term, or has just been elected. -/
theorem Trans.leader_cases (h : Trans σ act σ') (hσ : σ.AtRest) {a : Fin n}
    (hs : (σ'.node a).rf.state = .leader) :
    (σ.node a).rf.state = .leader ∧ (σ'.node a).rf.currentTerm = (σ.node a).rf.currentTerm ∨
    (σ.node a).rf.state = .candidate ∧ (σ'.node a).rf = (σ.node a).rf.becomeLeader := by
  rcases h.role hσ a with (hf | ⟨hs', ht⟩) | ⟨hrf, -⟩ | ⟨hc, hrf, -⟩
  · rw [hf] at hs
    simp at hs
  · exact Or.inl ⟨hs' ▸ hs, ht⟩
  · rw [hrf] at hs
    simp [Raft.becomeCandidate, Raft.persist] at hs
  · exact Or.inr ⟨hc, hrf⟩

/-- After a restart nobody on the server leads or waits. -/
theorem Trans.restart_quiet {a : Fin n} (h : Trans σ (.restart a) σ') (hσ : σ.AtRest) :
    (σ'.node a).rf.state = .follower ∧
      ∀ call ∈ σ'.calls, call.caller = a → call.waiting = false := by
  cases h with
  | restart hmake =>
    obtain rfl := hσ.make hmake
    refine ⟨by simp [Raft.revived, Raft.fresh], fun call' hmem hcaller ↦ ?_⟩
    obtain ⟨call, -, rfl⟩ := List.mem_map.mp hmem
    split
    · rfl
    · next hne =>
      rw [if_neg hne] at hcaller
      exact absurd hcaller hne

/-- Who leads, or waits for the answer to a replication request, has the arrays. -/
structure LedInv (σ : Cluster n Cmd) : Prop where
  /-- A leader. -/
  leader : ∀ a, (σ.node a).rf.state = .leader → (σ.node a).rf.HasLed
  /-- A server one of whose replicators waits. -/
  waiting : ∀ call ∈ σ.calls, call.waiting = true → call.rpc.Replicates →
    (σ.node call.caller).rf.HasLed

namespace LedInv

theorem step (hi : σ.LedInv) (h : Trans σ act σ') (hσ : σ.AtRest) : σ'.LedInv := by
  constructor
  · intro a hs
    rcases h.leader_cases hσ hs with ⟨hs', -⟩ | ⟨-, hrf⟩
    · refine (h.cells hσ a).hasLed (hi.leader a hs') fun hact ↦ ?_
      subst hact
      rw [(h.restart_quiet hσ).1] at hs
      simp at hs
    · exact hrf ▸ ⟨⟨_, rfl⟩, ⟨_, rfl⟩⟩
  · intro call' hmem hw hrep
    have hkeep : (σ.node call'.caller).rf.HasLed → (σ'.node call'.caller).rf.HasLed := by
      intro hl
      refine (h.cells hσ _).hasLed hl fun hact ↦ ?_
      subst hact
      rw [(h.restart_quiet hσ).2 call' hmem rfl] at hw
      simp at hw
    obtain ⟨c, hc'⟩ := List.mem_iff_getElem?.mp hmem
    rcases h.call_cases hc' with ⟨call, hc, hk⟩ | ⟨-, hreq, -⟩ | ⟨call, -, hc, hr, h1, -, h3⟩
    · refine hkeep ?_
      rw [hk.caller]
      exact hi.waiting call (List.mem_of_getElem? hc) (hk.waiting hw) (hk.rpc ▸ hrep)
    · refine hkeep (hi.leader _ ?_)
      -- only a leader makes such a request
      cases hreq with
      | vote => exact hrep.elim
      | append _ ha => exact (Raft.singleAppend_append ha).1
      | install _ ha => exact (Raft.singleAppend_install ha).1
    · refine hkeep ?_
      rw [h1]
      refine hi.waiting call (List.mem_of_getElem? hc) (h3 ▸ hw) ?_
      generalize call'.rpc = rpc at hr hrep
      cases hr with
      | vote => exact hrep.elim
      | append hr | install hr => rw [hr]; trivial

end LedInv

theorem ledInv_of_reach {P : Cluster n Cmd → Action n Cmd → Cluster n Cmd → Prop}
    (h : (machine n Cmd).Reach P σ) : σ.LedInv := by
  refine h.invariant (I := LedInv) ?_ fun σ act σ' hr hi hs _ ↦
    hi.step (Trans.of_step hs) (atRest_of_reach hr)
  constructor <;> simp [machine, init, Raft.fresh]

/-! ## The log of a leader -/

variable {g : RaftLedger n Cmd}

/-- **The log of a leader only grows.**  Another leader's request would have to come from a later
term, and end the leadership. -/
theorem Trans.leader_logLength (h : Trans σ act σ') (hσ : σ.AtRest) (hg : Rel σ g) {a : Fin n}
    (hs : (σ.node a).rf.state = .leader) (hs' : (σ'.node a).rf.state = .leader) :
    (σ.node a).rf.logLength ≤ (σ'.node a).rf.logLength := by
  have hsame : ∀ b, (σ.node b).rf.logLength ≤ (σ.node b).rf.logLength := fun _ ↦ le_rfl
  have hone : ∀ {b : Fin n} {nd : Node n Cmd}, (σ.node b).rf.logLength ≤ nd.rf.logLength →
      (σ.node a).rf.logLength ≤ ((σ.setNode b nd).node a).rf.logLength := fun hb ↦
    forall_setNode (P := fun x nd ↦ (σ.node x).rf.logLength ≤ nd.rf.logLength) hb hsame a
  -- a leader that takes something from the leader of `T` no longer leads
  have hother : ∀ {b w : Fin n} {nd : Node n Cmd} {T : Int}, g.winner T = some w → b ≠ w →
      (σ.node b).rf.currentTerm ≤ T → nd.rf.currentTerm = T →
      σ'.node = (σ.setNode b nd).node →
      (σ.node a).rf.logLength ≤ ((σ.setNode b nd).node a).rf.logLength := by
    intro b w nd T hw hne hle hT hn
    by_cases hab : a = b
    · subst hab
      rcases h.leader_cases hσ hs' with ⟨-, ht⟩ | ⟨hc, -⟩
      · rw [hn, setNode_self, hT] at ht
        exact absurd hs ((hg.node a).server.not_leader (ht ▸ hw) hne)
      · rw [hs] at hc
        simp at hc
    · rw [setNode_of_ne σ nd hab]
  cases h with
  | askVote | replicateIdle | replicateAppend | replicateInstall | lose | startRefused
  | snapshotOld => exact hsame a
  | tick | elect | wake | send | sendSnap => exact hone le_rfl
  | start => exact hone (by simp [Raft.append, Raft.persist, Raft.bEffortKick, Raft.logLength])
  | @snapshot b index data e hm hlt he =>
    have hlen := Raft.get_lt_logLength he
    refine hone ?_
    simp only [Raft.persist, Raft.logLength, List.length_cons, List.length_drop] at hlen ⊢
    omega
  | deliverVote _ _ hr =>
    rcases (Raft.requestVote_spec hr).2 with ⟨-, rfl⟩ | ⟨-, -, -, -, rfl⟩
    · exact hone (by simp)
    · exact hone (by simp [Raft.persist, Raft.logLength])
  | @deliverAppend c k call args rf reply hc hr hrf =>
    have hreq := hg.request call (List.mem_of_getElem? hc)
    rw [hr] at hreq
    rcases Raft.appendEntries_spec hrf with ⟨rfl, -⟩ | ⟨-, -, hle, -, w, rf₁, hrf₁, rfl⟩
    · exact hone (by simp)
    · refine hother hreq.winner hreq.other hle ?_ rfl
      rcases hrf₁ with ⟨rfl, -⟩ | rfl <;> simp [Raft.persist, hle]
  | @deliverInstall c k call args rf reply msg hc hr hrf =>
    have hreq := hg.request call (List.mem_of_getElem? hc)
    rw [hr] at hreq
    rcases (Raft.installSnapshot_spec hrf).2 with ⟨-, rfl, -⟩ | ⟨hle, -, hcase⟩
    · exact hone (by simp)
    · refine hother hreq.1.winner hreq.1.other hle ?_ rfl
      rcases hcase with ⟨-, -, rfl⟩ | ⟨-, -, rfl⟩ <;> simp [Raft.restored, Raft.persist, hle]
  | answerVote | countVote => exact hone (by simp)
  | answerAppend _ _ _ hr =>
    rcases Raft.singleAppendReply_spec hr with rfl | ⟨-, -, -, -, next, v, -, -, rfl⟩ |
      ⟨-, -, -, m, next, rf₁, -, -, rfl, rfl | ⟨M, e, q, -, -, -, -, -, -, rfl⟩⟩
    · exact hone (by simp)
    all_goals exact hone le_rfl
  | answerInstall _ _ _ hr =>
    rcases Raft.helpInstallReply_spec hr with rfl | ⟨-, m, next, -, -, rfl⟩
    · exact hone (by simp)
    · exact hone le_rfl
  | collect _ hk =>
    obtain ⟨rfl, -⟩ := Raft.guardKick_spec hk
    exact hone le_rfl
  | @restart b rf hmake =>
    obtain rfl := hσ.make hmake
    exact hone le_rfl

end Cluster

end DistLabs
