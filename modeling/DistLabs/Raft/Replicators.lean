import DistLabs.Raft.Matching

/-!
# Replicators

Each `replicator` sends one request, waits for its answer, and only then sends the next.
`becomeLeader` starts one for each peer, every time, while those of an earlier leadership go on as
long as the server is up.  `RepStep` lists what an action does to the replicators and to the
requests that are out.

In the runs in which no server is elected twice between restarts (`ElectsFresh`) there is one
replicator for each peer, and so at most one request out (`SerialInv`), and what a leader waits for
it has asked in its own term (`OwnInv`).
-/

set_option autoImplicit false

namespace DistLabs

variable {n : Nat} {Cmd : Type}

/-- The replicator that sent a request. -/
def Rpc.replicator : Rpc n Cmd → Option Nat
  | .vote _ _ _ => none
  | .append k _ _ | .install k _ _ => some k

/-- The term a request was sent in. -/
def Rpc.term : Rpc n Cmd → Int
  | .vote _ args _ => args.term
  | .append _ args _ => args.term
  | .install _ args _ => args.term

theorem Rpc.replicates_iff {rpc : Rpc n Cmd} : rpc.Replicates ↔ ∃ k, rpc.replicator = some k := by
  cases rpc <;> simp [Rpc.Replicates, Rpc.replicator]

namespace Cluster

/-! ## Requests that are out -/

/-- Replicator `k` of server `a` waits for the answer of peer `i` to call `c`. -/
def Runs (σ : Cluster n Cmd) (c k : Nat) (a i : Fin n) : Prop :=
  ∃ call, σ.calls[c]? = some call ∧ call.waiting = true ∧ call.rpc.replicator = some k ∧
    call.caller = a ∧ call.callee = i

/-- Call `c` is an `AppendEntries` or `InstallSnapshot` of server `a` in its current term to peer
`i`, and waited for. -/
def Outstanding (σ : Cluster n Cmd) (a i : Fin n) (c : Nat) : Prop :=
  ∃ call ∈ σ.calls[c]?, call.waiting = true ∧ call.rpc.replicator ≠ none ∧ call.caller = a ∧
    call.callee = i ∧ call.rpc.term = (σ.node a).rf.currentTerm

instance (σ : Cluster n Cmd) (a i : Fin n) (c : Nat) : Decidable (σ.Outstanding a i c) :=
  inferInstanceAs (Decidable (∃ _ ∈ _, _))

/-- Nobody becomes a leader who has been one in this incarnation: `nextIndex` is still `nil`. -/
def ElectsFresh (σ σ' : Cluster n Cmd) : Prop :=
  ∀ a, (σ.node a).rf.state ≠ .leader → (σ'.node a).rf.state = .leader →
    (σ.node a).rf.nextIndex.isNone

instance (σ σ' : Cluster n Cmd) : Decidable (σ.ElectsFresh σ') :=
  inferInstanceAs (Decidable (∀ _, _ → _ → _))

theorem Outstanding.runs {σ : Cluster n Cmd} {a i : Fin n} {c : Nat} (h : σ.Outstanding a i c) :
    ∃ k, σ.Runs c k a i := by
  obtain ⟨call, hc, hw, hr, ha, hi, -⟩ := h
  obtain ⟨k, hk⟩ := Option.ne_none_iff_exists'.mp hr
  exact ⟨k, call, hc, hw, hk, ha, hi⟩

variable [Labgob (Saved n Cmd)] {σ σ' : Cluster n Cmd} {act : Action n Cmd}

/-- What an action does to the replicators and to the requests that are out. -/
inductive RepStep (σ : Cluster n Cmd) (act : Action n Cmd) (σ' : Cluster n Cmd) : Prop
  /-- Nothing. -/
  | same (hr : σ'.replicators = σ.replicators)
      (hc : ∀ c k a i, σ'.Runs c k a i → σ.Runs c k a i) : RepStep σ act σ'
  /-- An idle replicator sends a request. -/
  | sent {k : Nat} {w : Replicator n} (hw : σ.replicators[k]? = some w) (halive : w.alive = true)
      (hidle : w.busy = false) (hr : σ'.replicators = σ.replicators.set k { w with busy := true })
      (hc : ∀ c k' a i, σ'.Runs c k' a i → σ.Runs c k' a i ∨
        c = σ.calls.length ∧ k' = k ∧ a = w.server ∧ i = w.peer) : RepStep σ act σ'
  /-- A replicator gets its answer, or is told that there will be none. -/
  | stopped {c k : Nat} {a i : Fin n} (hrun : σ.Runs c k a i)
      (hr : σ'.replicators = idle σ.replicators k)
      (hc : ∀ c' k' b j, σ'.Runs c' k' b j → σ.Runs c' k' b j ∧ c' ≠ c) : RepStep σ act σ'
  /-- A server is elected and starts its replicators. -/
  | elected {a : Fin n} (hs : (σ.node a).rf.state ≠ .leader)
      (hs' : (σ'.node a).rf.state = .leader)
      (hr : σ'.replicators = σ.replicators ++ (peers a).map fun i ↦ ⟨a, i, false, true⟩)
      (hc : ∀ c k b i, σ'.Runs c k b i → σ.Runs c k b i) : RepStep σ act σ'
  /-- A server restarts, and its replicators are gone. -/
  | restarted {a : Fin n} (hact : act = .restart a)
      (hr : σ'.replicators = σ.replicators.map fun w ↦
        if w.server = a then { w with alive := false } else w)
      (hc : ∀ c k b i, σ'.Runs c k b i → σ.Runs c k b i ∧ b ≠ a) : RepStep σ act σ'

/-- A request that is out was so before, or is the one that has just been made. -/
theorem Trans.runs_cases (h : Trans σ act σ') {c k : Nat} {a i : Fin n} (hr : σ'.Runs c k a i) :
    σ.Runs c k a i ∨ c = σ.calls.length ∧ ∃ w, σ.replicators[k]? = some w ∧ a = w.server ∧
      i = w.peer := by
  obtain ⟨call', hc', hw, hk, rfl, rfl⟩ := hr
  rcases h.call_cases hc' with ⟨call, hc, hkeep⟩ | ⟨rfl, hreq, -⟩ | ⟨call, -, hc, hr, h1, h2, h3⟩
  · exact Or.inl ⟨call, hc, hkeep.waiting hw, hkeep.rpc ▸ hk, hkeep.caller.symm, hkeep.callee.symm⟩
  · refine Or.inr ⟨rfl, ?_⟩
    cases hreq with
    | vote => simp [Rpc.replicator] at hk
    | append hw' | install hw' =>
      obtain rfl := Option.some_inj.mp hk
      exact ⟨_, hw', rfl, rfl⟩
  · refine Or.inl ⟨call, hc, h3 ▸ hw, ?_, h1.symm, h2.symm⟩
    generalize call'.rpc = rpc at hr hk
    cases hr with
    | vote => simp [Rpc.replicator] at hk
    | append hr | install hr => rw [hr]; exact hk

/-- As long as no call is made, what is out was out before. -/
theorem Trans.runs_old (h : Trans σ act σ') (hlen : σ'.calls.length = σ.calls.length) (c k : Nat)
    (a i : Fin n) (hr : σ'.Runs c k a i) : σ.Runs c k a i := by
  refine (h.runs_cases hr).resolve_right fun hnew ↦ ?_
  obtain ⟨call, hc, -⟩ := hr
  have := (List.getElem?_eq_some_iff.mp hc).1
  omega

omit [Labgob (Saved n Cmd)] in
/-- A call that is answered or lost is no longer out. -/
theorem not_runs_of_set {c k : Nat} {a i : Fin n} {call : Call n Cmd}
    (h : σ'.calls = σ.calls.set c { call with waiting := false }) : ¬ σ'.Runs c k a i := by
  rintro ⟨call', hc', hw, -⟩
  rw [h] at hc'
  rcases List.getElem?_set_cases hc' with ⟨-, rfl⟩ | ⟨hne, -⟩
  · simp at hw
  · exact hne rfl

theorem repStep_of_lose {c : Nat} (h : σ.lose c = some σ') : RepStep σ (.lose c) σ' := by
  have hold := (Trans.of_lose h).runs_old
  obtain ⟨call, hc, h⟩ := Option.bind_eq_some_iff.mp h
  split at h
  swap
  · simp at h
  next hw =>
  -- the replicator whose call is lost is free again
  have hstop : ∀ {k : Nat}, call.rpc.replicator = some k →
      σ' = { σ with
        calls := σ.calls.set c { call with waiting := false }
        replicators := idle σ.replicators k } → RepStep σ (.lose c) σ' := by
    rintro k hk rfl
    refine .stopped ⟨call, hc, hw, hk, rfl, rfl⟩ rfl fun c' k' b j hr ↦
      ⟨hold (by simp) _ _ _ _ hr, ?_⟩
    rintro rfl
    exact not_runs_of_set rfl hr
  dsimp only at h
  split at h
  · obtain rfl := Option.some_inj.mp h
    exact .same rfl (hold (by simp))
  · next k _ _ hr => exact hstop (by rw [hr]; rfl) (Option.some_inj.mp h).symm
  · next k _ _ hr => exact hstop (by rw [hr]; rfl) (Option.some_inj.mp h).symm

theorem repStep_of_replicate {k : Nat} (h : σ.replicate k = some σ') :
    RepStep σ (.replicate k) σ' := by
  have ht := Trans.of_replicate h
  obtain ⟨w, hw, h⟩ := Option.bind_eq_some_iff.mp h
  split at h
  swap
  · simp at h
  next hready =>
  have hsent : ∀ {rpc : Rpc n Cmd}, rpc.replicator = some k →
      σ' = { σ with
        replicators := σ.replicators.set k { w with busy := true }
        calls := σ.calls ++ [⟨w.server, w.peer, rpc, true⟩] } → RepStep σ (.replicate k) σ' := by
    rintro rpc hk rfl
    refine .sent hw hready.1 hready.2 rfl fun c k' a i hr ↦ ?_
    rcases ht.runs_cases hr with hold | ⟨rfl, -⟩
    · exact Or.inl hold
    obtain ⟨call, hc, -, hk', rfl, rfl⟩ := hr
    rw [List.getElem?_concat_length, Option.some_inj] at hc
    subst hc
    exact Or.inr ⟨rfl, Option.some_inj.mp (hk'.symm.trans hk), rfl, rfl⟩
  obtain ⟨out, hout, h⟩ := Option.bind_eq_some_iff.mp h
  match out with
  | none =>
    obtain rfl := Option.some_inj.mp h
    exact .same rfl fun _ _ _ _ hr ↦ hr
  | some (.append args) => exact hsent rfl (Option.some_inj.mp h).symm
  | some (.install args) => exact hsent rfl (Option.some_inj.mp h).symm

/-- **These are all the ways in which the replicators change.** -/
theorem repStep_of_step (h : σ.step act = some σ') : RepStep σ act σ' := by
  have ht := Trans.of_step h
  have hold := ht.runs_old
  cases ht with
  | tick | start | startRefused | snapshot | snapshotOld | wake | collect | send | sendSnap
  | deliverVote | deliverAppend | deliverInstall | answerVote | countVote =>
    exact .same rfl (hold (by simp [setRf, setNode]))
  | askVote =>
    refine .same rfl fun c k a i hrun ↦ ?_
    obtain ⟨call, hc, hw, hk, hrest⟩ := hrun
    rcases List.getElem?_concat_cases hc with hc | ⟨-, rfl⟩
    · exact ⟨call, hc, hw, hk, hrest⟩
    · simp [Rpc.replicator] at hk
  | replicateIdle | replicateAppend | replicateInstall => exact repStep_of_replicate h
  | elect _ _ _ _ hv =>
    refine .elected (a := _) ?_ ?_ rfl (hold (by simp))
    · rw [(Raft.countsVote_spec hv).2.1]
      simp
    · simp [Raft.becomeLeader]
  | @answerAppend c k call _ _ _ hc hw hr | @answerInstall c k call _ _ _ hc hw hr =>
    refine .stopped (k := k) ⟨call, hc, hw, by rw [hr]; rfl, rfl, rfl⟩ rfl fun c' k' b j hrun ↦
      ⟨hold (by simp) _ _ _ _ hrun, ?_⟩
    rintro rfl
    exact not_runs_of_set rfl hrun
  | lose => exact repStep_of_lose h
  | @restart a rf =>
    refine .restarted rfl rfl fun c k b i hrun ↦ ⟨hold (by simp) _ _ _ _ hrun, ?_⟩
    rintro rfl
    obtain ⟨call', hc', hw, -, hcaller, -⟩ := hrun
    rw [List.getElem?_map, Option.map_eq_some_iff] at hc'
    obtain ⟨call, -, rfl⟩ := hc'
    split at hw
    · simp at hw
    · next hne =>
      rw [if_neg hne] at hcaller
      exact hne hcaller

/-! ## One replicator for each peer -/

omit [Labgob (Saved n Cmd)] in
/-- A replicator that is up was so before, or has been started by an election in this action. -/
theorem RepStep.alive_cases (h : RepStep σ act σ') {k : Nat} {w' : Replicator n}
    (hw' : σ'.replicators[k]? = some w') (halive : w'.alive = true) :
    (∃ w, σ.replicators[k]? = some w ∧ w.alive = true ∧ w.server = w'.server ∧ w.peer = w'.peer) ∨
    σ.replicators.length ≤ k ∧ (σ.node w'.server).rf.state ≠ .leader ∧
      (σ'.node w'.server).rf.state = .leader ∧
      (peers w'.server)[k - σ.replicators.length]? = some w'.peer := by
  cases h with
  | same hr => exact Or.inl ⟨w', hr ▸ hw', halive, rfl, rfl⟩
  | @sent k₀ w hw hup _ hr =>
    rw [hr] at hw'
    rcases List.getElem?_set_cases hw' with ⟨rfl, rfl⟩ | ⟨-, hw'⟩
    · exact Or.inl ⟨w, hw, hup, rfl, rfl⟩
    · exact Or.inl ⟨w', hw', halive, rfl, rfl⟩
  | stopped _ hr =>
    rw [hr, idle, List.getElem?_modify, Option.map_eq_map, Option.map_eq_some_iff] at hw'
    obtain ⟨w, hw, rfl⟩ := hw'
    refine Or.inl ⟨w, hw, ?_⟩
    split at halive
    · exact ⟨halive, by simp [*]⟩
    · exact ⟨halive, by simp [*]⟩
  | @elected a hs hs' hr =>
    rw [hr] at hw'
    rcases Nat.lt_or_ge k σ.replicators.length with hlt | hge
    · rw [List.getElem?_append_left hlt] at hw'
      exact Or.inl ⟨w', hw', halive, rfl, rfl⟩
    · rw [List.getElem?_append_right hge, List.getElem?_map, Option.map_eq_some_iff] at hw'
      obtain ⟨i, hi, rfl⟩ := hw'
      exact Or.inr ⟨hge, hs, hs', hi⟩
  | restarted _ hr =>
    rw [hr, List.getElem?_map, Option.map_eq_some_iff] at hw'
    obtain ⟨w, hw, rfl⟩ := hw'
    split at halive
    · simp at halive
    · next hne => exact Or.inl ⟨w, hw, halive, by rw [if_neg hne], by rw [if_neg hne]⟩

/-- A restart leaves none of a server's replicators. -/
theorem Trans.restart_alive {a : Fin n} (h : Trans σ (.restart a) σ') {w : Replicator n}
    (hw : w ∈ σ'.replicators) (halive : w.alive = true) : w.server ≠ a := by
  cases h with
  | restart =>
    obtain ⟨w₀, -, rfl⟩ := List.mem_map.mp hw
    split at halive
    · simp at halive
    · next hne => rwa [if_neg hne]

/-- Each peer has one replicator, which makes one call at a time. -/
structure SerialInv (σ : Cluster n Cmd) : Prop where
  /-- A call that is out keeps its replicator busy. -/
  running : ∀ c k a i, σ.Runs c k a i → ∃ w, σ.replicators[k]? = some w ∧ w.server = a ∧
    w.peer = i ∧ w.alive = true ∧ w.busy = true
  /-- And no other call does. -/
  once : ∀ c c' k a a' i i', σ.Runs c k a i → σ.Runs c' k a' i' → c = c'
  /-- No two replicators that are up serve the same peer for the same server. -/
  unique : ∀ (k k' : Nat) (w w' : Replicator n), σ.replicators[k]? = some w →
    σ.replicators[k']? = some w' → w.alive = true → w'.alive = true → w.server = w'.server →
      w.peer = w'.peer → k = k'
  /-- A server whose replicators are up has been a leader. -/
  led : ∀ w ∈ σ.replicators, w.alive = true → (σ.node w.server).rf.HasLed

namespace SerialInv

omit [Labgob (Saved n Cmd)] in
/-- **At most one request is out** from one server to another. -/
theorem runs_unique (hi : σ.SerialInv) {c c' k k' : Nat} {a i : Fin n} (h : σ.Runs c k a i)
    (h' : σ.Runs c' k' a i) : c = c' := by
  obtain ⟨w, hw, hs, hp, hup, -⟩ := hi.running c k a i h
  obtain ⟨w', hw', hs', hp', hup', -⟩ := hi.running c' k' a i h'
  obtain rfl := hi.unique k k' w w' hw hw' hup hup' (hs.trans hs'.symm) (hp.trans hp'.symm)
  exact hi.once c c' k a a i i h h'

omit [Labgob (Saved n Cmd)] in
theorem running_step (hi : σ.SerialInv) (h : RepStep σ act σ') (c k : Nat) (a i : Fin n)
    (hrun : σ'.Runs c k a i) : ∃ w, σ'.replicators[k]? = some w ∧ w.server = a ∧ w.peer = i ∧
      w.alive = true ∧ w.busy = true := by
  cases h with
  | same hr hc => exact hr ▸ hi.running c k a i (hc c k a i hrun)
  | @sent k₀ w₀ hw₀ hup hidle hr hc =>
    rw [hr]
    rcases hc c k a i hrun with hold | ⟨-, rfl, rfl, rfl⟩
    · -- a busy replicator is not the idle one
      obtain ⟨w, hw, hs, hp, hup', hbusy⟩ := hi.running c k a i hold
      have hne : k₀ ≠ k := by
        rintro rfl
        obtain rfl := Option.some_inj.mp (hw.symm.trans hw₀)
        rw [hidle] at hbusy
        simp at hbusy
      exact ⟨w, by rw [List.getElem?_set_ne hne]; exact hw, hs, hp, hup', hbusy⟩
    · have hlt := (List.getElem?_eq_some_iff.mp hw₀).1
      exact ⟨_, List.getElem?_set_self hlt, rfl, rfl, hup, rfl⟩
  | @stopped c₀ k₀ a₀ i₀ hrun₀ hr hc =>
    obtain ⟨hold, hne⟩ := hc c k a i hrun
    obtain ⟨w, hw, hrest⟩ := hi.running c k a i hold
    have hk : k₀ ≠ k := by
      rintro rfl
      exact hne (hi.once _ _ _ _ _ _ _ hold hrun₀)
    refine ⟨w, ?_, hrest⟩
    simp only [hr, idle, List.getElem?_modify, if_neg hk, hw]
    rfl
  | elected _ _ hr hc =>
    obtain ⟨w, hw, hrest⟩ := hi.running c k a i (hc c k a i hrun)
    exact ⟨w, by rw [hr, List.getElem?_append_left (List.getElem?_eq_some_iff.mp hw).1, hw], hrest⟩
  | restarted _ hr hc =>
    obtain ⟨hold, hne⟩ := hc c k a i hrun
    obtain ⟨w, hw, hs, hrest⟩ := hi.running c k a i hold
    exact ⟨w, by rw [hr, List.getElem?_map, hw, Option.map_some, if_neg (hs ▸ hne)], hs, hrest⟩

omit [Labgob (Saved n Cmd)] in
theorem once_step (hi : σ.SerialInv) (h : RepStep σ act σ') (c c' k : Nat) (a a' i i' : Fin n)
    (hrun : σ'.Runs c k a i) (hrun' : σ'.Runs c' k a' i') : c = c' := by
  cases h with
  | same _ hc => exact hi.once _ _ _ _ _ _ _ (hc _ _ _ _ hrun) (hc _ _ _ _ hrun')
  | @sent k₀ w₀ hw₀ hup hidle hr hc =>
    -- the replicator that has just sent had nothing out
    have hfree : ∀ {x : Nat} {b j : Fin n}, ¬ σ.Runs x k₀ b j := by
      intro x b j hx
      obtain ⟨w, hw, -, -, -, hbusy⟩ := hi.running _ _ _ _ hx
      obtain rfl := Option.some_inj.mp (hw.symm.trans hw₀)
      rw [hidle] at hbusy
      simp at hbusy
    rcases hc _ _ _ _ hrun with hold | ⟨rfl, rfl, -⟩ <;>
      rcases hc _ _ _ _ hrun' with hold' | ⟨rfl, hk, -⟩
    · exact hi.once _ _ _ _ _ _ _ hold hold'
    · exact absurd (hk ▸ hold) hfree
    · exact absurd hold' hfree
    · rfl
  | stopped _ _ hc => exact hi.once _ _ _ _ _ _ _ (hc _ _ _ _ hrun).1 (hc _ _ _ _ hrun').1
  | elected _ _ _ hc => exact hi.once _ _ _ _ _ _ _ (hc _ _ _ _ hrun) (hc _ _ _ _ hrun')
  | restarted _ _ hc => exact hi.once _ _ _ _ _ _ _ (hc _ _ _ _ hrun).1 (hc _ _ _ _ hrun').1

omit [Labgob (Saved n Cmd)] in
/-- A server that is elected for the first time has no replicators yet. -/
theorem fresh (hi : σ.SerialInv) (hfresh : σ.ElectsFresh σ') {w : Replicator n}
    (hw : w ∈ σ.replicators) (halive : w.alive = true)
    (hs : (σ.node w.server).rf.state ≠ .leader) : (σ'.node w.server).rf.state ≠ .leader := by
  intro hs'
  obtain ⟨next, hnext⟩ := (hi.led w hw halive).next
  have hnone := hfresh w.server hs hs'
  rw [hnext] at hnone
  simp at hnone

omit [Labgob (Saved n Cmd)] in
theorem unique_step (hi : σ.SerialInv) (h : RepStep σ act σ') (hfresh : σ.ElectsFresh σ')
    (k k' : Nat)
    (w w' : Replicator n) (hw : σ'.replicators[k]? = some w) (hw' : σ'.replicators[k']? = some w')
    (hup : w.alive = true) (hup' : w'.alive = true) (hs : w.server = w'.server)
    (hp : w.peer = w'.peer) : k = k' := by
  have hmix : ∀ {x y : Replicator n}, x ∈ σ.replicators → x.alive = true → x.server = y.server →
      (σ.node y.server).rf.state ≠ .leader → (σ'.node y.server).rf.state = .leader → False := by
    intro x y hx hxup hxy hst hst'
    rw [← hxy] at hst hst'
    exact hi.fresh hfresh hx hxup hst hst'
  rcases h.alive_cases hw hup with ⟨x, hx, hxup, hxs, hxp⟩ | ⟨hge, hst, hst', hpeer⟩ <;>
    rcases h.alive_cases hw' hup' with ⟨y, hy, hyup, hys, hyp⟩ | ⟨hge', hst₂, hst₂', hpeer'⟩
  · exact hi.unique k k' x y hx hy hxup hyup (by rw [hxs, hys, hs]) (by rw [hxp, hyp, hp])
  · exact (hmix (List.mem_of_getElem? hx) hxup (hxs.trans hs) hst₂ hst₂').elim
  · exact (hmix (List.mem_of_getElem? hy) hyup (hys.trans hs.symm) hst hst').elim
  · -- both are new, and an election starts one for each peer
    have hnodup : (peers w.server).Nodup := (List.nodup_finRange n).filter _
    have hlt := (List.getElem?_eq_some_iff.mp hpeer).1
    rw [hs] at hpeer hlt hnodup
    have := (List.getElem?_inj hlt hnodup).mp (hpeer.trans (hp ▸ hpeer'.symm))
    omega

theorem led_step (hi : σ.SerialInv) (h : Trans σ act σ') (hr : RepStep σ act σ') (hσ : σ.AtRest)
    (hl : σ'.LedInv) (w : Replicator n) (hw : w ∈ σ'.replicators) (hup : w.alive = true) :
    (σ'.node w.server).rf.HasLed := by
  obtain ⟨k, hk⟩ := List.mem_iff_getElem?.mp hw
  rcases hr.alive_cases hk hup with ⟨x, hx, hxup, hxs, -⟩ | ⟨-, -, hs', -⟩
  · refine (h.cells hσ _).hasLed (hxs ▸ hi.led x (List.mem_of_getElem? hx) hxup) ?_
    rintro rfl
    exact h.restart_alive hw hup rfl
  · exact hl.leader _ hs'

end SerialInv

theorem serialInv_of_reach {P : Cluster n Cmd → Action n Cmd → Cluster n Cmd → Prop}
    (hP : ∀ σ act σ', P σ act σ' → σ.ElectsFresh σ') (h : (machine n Cmd).Reach P σ) :
    σ.SerialInv := by
  refine h.invariant (I := SerialInv) ?_ fun σ act σ' hr hi hs hp ↦ ?_
  · constructor <;> simp [machine, init, Runs]
  · have ht := Trans.of_step hs
    have hrep := repStep_of_step hs
    exact ⟨hi.running_step hrep, hi.once_step hrep, hi.unique_step hrep (hP _ _ _ hp),
      hi.led_step ht hrep (atRest_of_reach hr) (ledInv_of_reach (hr.step hs hp))⟩

/-! ## Requests of the current term -/

/-- What a leader waits for, it has asked in its own term. -/
def OwnInv (σ : Cluster n Cmd) : Prop :=
  ∀ call ∈ σ.calls, call.waiting = true → call.rpc.Replicates →
    (σ.node call.caller).rf.state = .leader → call.rpc.term = (σ.node call.caller).rf.currentTerm

omit [Labgob (Saved n Cmd)] in
theorem Requests.own {call : Call n Cmd} (h : Requests σ σ' call) (hrep : call.rpc.Replicates) :
    call.rpc.term = (σ.node call.caller).rf.currentTerm := by
  cases h with
  | vote => exact hrep.elim
  | append _ ha => exact (Raft.singleAppend_append ha).2.1
  | install _ ha =>
    obtain ⟨-, t, -, rfl⟩ := Raft.singleAppend_install ha
    rfl

theorem Replies.same {call : Call n Cmd} {rpc : Rpc n Cmd} (h : Replies σ σ' call rpc) :
    rpc.term = call.rpc.term ∧ (rpc.Replicates → call.rpc.Replicates) := by
  cases h with
  | vote hr | append hr | install hr => rw [hr]; exact ⟨rfl, id⟩

theorem OwnInv.step (hi : σ.OwnInv) (h : Trans σ act σ') (hσ : σ.AtRest) (hl : σ.LedInv)
    (hfresh : σ.ElectsFresh σ') : σ'.OwnInv := by
  intro call' hmem hw hrep hs'
  obtain ⟨c, hc'⟩ := List.mem_iff_getElem?.mp hmem
  -- a server that waits for a call it has made before was leading already
  have hold : ∀ call ∈ σ.calls, call.waiting = true → call.rpc.Replicates →
      call'.caller = call.caller →
      call.rpc.term = (σ'.node call'.caller).rf.currentTerm := by
    intro call hcall hwait hr hcaller
    rw [hcaller] at hs' ⊢
    rcases h.leader_cases hσ hs' with ⟨hs, hT⟩ | ⟨hs, -⟩
    · rw [hT]
      exact hi call hcall hwait hr hs
    · obtain ⟨next, hnext⟩ := (hl.waiting call hcall hwait hr).next
      have hnone := hfresh call.caller (by rw [hs]; simp) hs'
      rw [hnext] at hnone
      simp at hnone
  rcases h.call_cases hc' with ⟨call, hc, hk⟩ | ⟨-, hreq, hn⟩ | ⟨call, -, hc, hr, h1, -, h3⟩
  · rw [hk.rpc]
    exact hold call (List.mem_of_getElem? hc) (hk.waiting hw) (hk.rpc ▸ hrep) hk.caller
  · rw [hn]
    exact hreq.own hrep
  · rw [hr.same.1]
    exact hold call (List.mem_of_getElem? hc) (h3 ▸ hw) (hr.same.2 hrep) h1

theorem ownInv_of_reach {P : Cluster n Cmd → Action n Cmd → Cluster n Cmd → Prop}
    (hP : ∀ σ act σ', P σ act σ' → σ.ElectsFresh σ') (h : (machine n Cmd).Reach P σ) :
    σ.OwnInv := by
  refine h.invariant (I := OwnInv) ?_ fun σ act σ' hr hi hs hp ↦
    hi.step (Trans.of_step hs) (atRest_of_reach hr) (ledInv_of_reach hr) (hP _ _ _ hp)
  simp [OwnInv, machine, init]

/-- So a leader takes no refused snapshot for an accepted one. -/
theorem OwnInv.takesAccepted (hi : σ.OwnInv) (hs : σ.step act = some σ') : σ.TakesAccepted act := by
  cases act with
  | answer c =>
    intro call hc
    obtain ⟨call₀, hc₀, hs⟩ := Option.bind_eq_some_iff.mp hs
    obtain rfl := Option.some_inj.mp (hc.symm.trans hc₀)
    split at hs
    swap
    · simp at hs
    next hw =>
    match hr : call.rpc with
    | .install k args (some reply) =>
      intro hlead hle
      have hterm := hi call (List.mem_of_getElem? hc) hw (by rw [hr]; trivial) hlead
      rw [hr] at hterm
      exact hle.trans hterm.ge
    | .install _ _ none | .vote _ _ _ | .append _ _ _ => trivial
  | tick | askVote | replicate | deliver | lose | start | snapshot | wake | collect | send
  | sendSnap
  | restart => trivial

end Cluster

end DistLabs
