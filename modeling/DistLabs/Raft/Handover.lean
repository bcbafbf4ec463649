import DistLabs.Raft.CommitLog

/-!
# What a service is handed

The side of a Raft server that its service sees: the messages it has received in this incarnation,
the index it started from, and the snapshot on the disk.

* Only one server acts at a time (`Trans.node_cases`), and its snapshot changes only together with
  the last index it covers (`Trans.snapshot_eq`).
* What was received is on record, goes beyond the start index, and a service cuts its log only where
  it has received a message (`HandoverInv`).
* Without snapshots there is one writer of `applyCh`, so nothing is overtaken
  (`QuietInv.takesOldest`).
-/

set_option autoImplicit false

namespace DistLabs

variable {n : Nat} {Cmd : Type}

namespace Cluster

variable [Labgob (Saved n Cmd)] {σ σ' : Cluster n Cmd} {act : Action n Cmd}

/-! ## One server at a time -/

/-- At most one node changes. -/
theorem Trans.node_cases (h : Trans σ act σ') :
    σ'.node = σ.node ∨ ∃ b nd, σ'.node = (σ.setNode b nd).node := by
  cases h with
  | askVote | replicateIdle | replicateAppend | replicateInstall | lose | startRefused
  | snapshotOld => exact Or.inl rfl
  | tick | deliverVote | deliverAppend | deliverInstall | answerVote | countVote | elect
  | answerAppend | answerInstall | start | snapshot | wake | collect | send | sendSnap
  | restart => exact Or.inr ⟨_, _, rfl⟩

/-- A snapshot is replaced only by one that covers more. -/
theorem Trans.snapshot_eq (h : Trans σ act σ') (hσ : σ.AtRest) (a : Fin n)
    (heq : (σ'.node a).rf.snapIndex = (σ.node a).rf.snapIndex) :
    (σ'.node a).rf.snapshot = (σ.node a).rf.snapshot := by
  have hone : ∀ {b : Fin n} {nd : Node n Cmd}, σ'.node = (σ.setNode b nd).node →
      (nd.rf.snapIndex = (σ.node b).rf.snapIndex → nd.rf.snapshot = (σ.node b).rf.snapshot) →
      (σ'.node a).rf.snapshot = (σ.node a).rf.snapshot := by
    intro b nd hn hb
    by_cases ha : a = b
    · subst ha
      rw [hn, setNode_self] at heq ⊢
      exact hb heq
    · rw [hn, setNode_of_ne σ nd ha]
  cases h with
  | askVote | replicateIdle | replicateAppend | replicateInstall | lose | startRefused
  | snapshotOld => rfl
  | tick | wake | send | sendSnap | start | elect => exact hone rfl fun _ ↦ rfl
  | answerVote | countVote => exact hone rfl fun _ ↦ by simp
  | deliverVote _ _ hr =>
    refine hone rfl fun _ ↦ ?_
    rcases (Raft.requestVote_spec hr).2 with ⟨-, rfl⟩ | ⟨-, -, -, -, rfl⟩ <;> simp [Raft.persist]
  | deliverAppend _ _ hr =>
    refine hone rfl fun _ ↦ ?_
    rcases Raft.appendEntries_spec hr with ⟨rfl, -⟩ | ⟨-, -, -, -, w, rf₁, ⟨rfl, -⟩ | rfl, rfl⟩ <;>
      simp [Raft.persist]
  | deliverInstall _ _ hr =>
    refine hone rfl fun hidx ↦ ?_
    rcases (Raft.installSnapshot_spec hr).2 with ⟨-, rfl, -⟩ | ⟨-, hlt, hcase⟩
    · simp
    · rcases hcase with ⟨-, -, rfl⟩ | ⟨-, -, rfl⟩ <;> exact absurd hidx hlt.ne'
  | answerAppend _ _ _ hr =>
    refine hone rfl fun _ ↦ ?_
    rcases Raft.singleAppendReply_spec hr with rfl | ⟨-, -, -, -, next, v, -, -, rfl⟩ |
      ⟨-, -, -, m, next, rf₁, -, -, rfl, rfl | ⟨M, e, c, -, -, -, -, -, -, rfl⟩⟩ <;>
      simp [Raft.bEffortKick]
  | answerInstall _ _ _ hr =>
    refine hone rfl fun _ ↦ ?_
    rcases Raft.helpInstallReply_spec hr with rfl | ⟨-, m, next, -, -, rfl⟩ <;> simp
  | snapshot _ hlt => exact hone rfl fun hidx ↦ absurd hidx hlt.ne'
  | collect _ hk =>
    obtain ⟨rfl, -⟩ := Raft.guardKick_spec hk
    exact hone rfl fun _ ↦ rfl
  | restart hmake =>
    obtain rfl := hσ.make hmake
    exact hone rfl fun _ ↦ rfl

/-- **How the disk of a server changes**: not at all, or it gets a snapshot that covers more and
that some service handed over. -/
theorem Trans.disk_cases (h : Trans σ act σ') (hσ : σ.AtRest) (hs : σ'.SnapInv) (a : Fin n) :
    ((σ'.node a).rf.snapIndex = (σ.node a).rf.snapIndex ∧
      (σ'.node a).rf.snapshot = (σ.node a).rf.snapshot) ∨
    (σ.node a).rf.snapIndex < (σ'.node a).rf.snapIndex ∧
      ∃ b rf, .cut b (σ'.node a).rf.snapIndex (σ'.node a).rf.snapshot rf ∈ σ'.hist := by
  rcases (h.evolves hσ a).snap.eq_or_lt with heq | hlt
  · exact Or.inl ⟨heq.symm, h.snapshot_eq hσ a heq.symm⟩
  · refine Or.inr ⟨hlt, ?_⟩
    rcases hs.node a with ⟨h0, -⟩ | hcut
    · omega
    · exact hcut

/-! ## What the service sees -/

/-- Nothing of what the service sees has changed. -/
structure SameView (nd nd' : Node n Cmd) : Prop where
  /-- The messages. -/
  received : nd'.received = nd.received
  /-- Where it started. -/
  startIndex : nd'.startIndex = nd.startIndex
  /-- What the snapshot covers. -/
  snapIndex : nd'.rf.snapIndex = nd.rf.snapIndex
  /-- The snapshot. -/
  snapshot : nd'.rf.snapshot = nd.rf.snapshot

/-- `Start` says whether there is a new entry, and puts it on record. -/
theorem start_cases {b : Fin n} {c : Option Cmd} (h : σ.step (.start b c) = some σ') :
    (((σ.node b).rf.start c).2.isSome = true ∧ (∃ i T, σ'.hist = σ.hist ++ [.started b i T c]) ∨
      ((σ.node b).rf.start c).2.isSome = false ∧ σ'.hist = σ.hist) ∧
    ∀ a, SameView (σ.node a) (σ'.node a) := by
  change σ.start b c = some σ' at h
  rw [Cluster.start] at h
  by_cases hs : (σ.node b).rf.state = .leader
  · rw [Raft.start_of_leader hs] at h ⊢
    obtain rfl := Option.some_inj.mp h
    exact ⟨Or.inl ⟨rfl, _, _, rfl⟩, forall_setNode (P := fun a nd ↦ SameView (σ.node a) nd)
      ⟨rfl, rfl, rfl, rfl⟩ fun _ ↦ ⟨rfl, rfl, rfl, rfl⟩⟩
  · rw [Raft.start_of_not_leader hs] at h ⊢
    obtain rfl := Option.some_inj.mp h
    exact ⟨Or.inr ⟨rfl, List.append_nil _⟩, forall_setNode (P := fun a nd ↦ SameView (σ.node a) nd)
      ⟨rfl, rfl, rfl, rfl⟩ fun _ ↦ ⟨rfl, rfl, rfl, rfl⟩⟩

/-- `Snapshot` does nothing if the snapshot is old, and otherwise saves it. -/
theorem snapshot_cases {b : Fin n} {index : Nat} {data : Bytes}
    (h : σ.step (.snapshot b index data) = some σ') :
    index ≤ (σ.node b).rf.snapIndex ∧ σ'.node = σ.node ∧ σ'.hist = σ.hist ∨
    (σ.node b).rf.snapIndex < index ∧ σ'.hist = σ.hist ++ [.cut b index data (σ.node b).rf] ∧
      ∃ rf : Raft n Cmd, σ'.node = (σ.setRf b rf).node ∧ rf.snapIndex = index ∧
        rf.snapshot = data := by
  change σ.snapshot b index data = some σ' at h
  rw [Cluster.snapshot] at h
  dsimp only at h
  split at h
  swap
  · simp at h
  obtain ⟨rf, hrf, h⟩ := Option.bind_eq_some_iff.mp h
  obtain rfl := Option.some_inj.mp h
  rcases Raft.snapshotAt_spec hrf with ⟨hle, rfl⟩ | ⟨hlt, e, he, rfl⟩
  · exact Or.inl ⟨hle, by simp [setRf, setNode], by simp [Nat.not_lt.mpr hle]⟩
  · exact Or.inr ⟨hlt, by simp [hlt], _, rfl, rfl, rfl⟩

/-! ## Messages -/

/-- The service of `a` receives `m`: it was on its way, and nothing else changes. -/
structure Hands (σ σ' : Cluster n Cmd) (a : Fin n) (m : ApplyMsg Cmd) : Prop where
  /-- The message was on its way. -/
  mem : m ∈ (σ.node a).received ++ ((σ.node a).batch ++ (σ.node a).snapSends)
  /-- It is now received. -/
  node : ∃ batch sends, σ'.node = (σ.setNode a { σ.node a with
    batch := batch, snapSends := sends, received := (σ.node a).received ++ [m] }).node
  /-- Which goes on record. -/
  hist : σ'.hist = σ.hist ++ [.received a m]

theorem Trans.hands_send {a : Fin n} {m : ApplyMsg Cmd} (h : Trans σ (.send a) σ')
    (hm : (σ.node a).batch.head? = some m) : Hands σ σ' a m := by
  cases h with
  | send hb =>
    obtain rfl : _ = m := by simpa [hb] using hm
    exact ⟨by simp [hb], ⟨_, _, rfl⟩, rfl⟩

theorem Trans.hands_sendSnap {a : Fin n} {k : Nat} {m : ApplyMsg Cmd}
    (h : Trans σ (.sendSnap a k) σ') (hm : (σ.node a).snapSends[k]? = some m) :
    Hands σ σ' a m := by
  cases h with
  | sendSnap hk =>
    obtain rfl := Option.some_inj.mp (hk.symm.trans hm)
    exact ⟨by simp [List.mem_of_getElem? hk], ⟨_, _, rfl⟩, rfl⟩

/-- An entry is started by a call of `Start` only. -/
theorem Trans.started_cases (h : Trans σ act σ') {a : Fin n} {i : Nat} {T : Int} {c : Option Cmd}
    (he : .started a i T c ∈ σ'.hist) :
    .started a i T c ∈ σ.hist ∨ act = .start a c := by
  cases h with
  | start =>
    rcases List.mem_append.mp he with hold | hnew
    · exact Or.inl hold
    · obtain ⟨rfl, -, -, rfl⟩ := Event.started.inj (List.mem_singleton.mp hnew)
      exact Or.inr rfl
  | askVote | replicateIdle | replicateAppend | replicateInstall | deliverVote | deliverAppend
  | deliverInstall | answerVote | answerInstall | lose | startRefused | snapshotOld | wake
  | collect => exact Or.inl he
  | tick | countVote | elect | answerAppend | snapshot | send | sendSnap | restart =>
    exact Or.inl ((List.mem_append.mp he).resolve_right (by simp))

/-- What was ever received, at this index or beyond. -/
def ReceivedUpTo (hist : List (Event n Cmd)) (i : Nat) : Prop :=
  i = 0 ∨ ∃ b m, .received b m ∈ hist ∧ i ≤ m.index

omit [Labgob (Saved n Cmd)] in
theorem ReceivedUpTo.mono {hist hist' : List (Event n Cmd)} (hsub : hist ⊆ hist') {i : Nat}
    (h : ReceivedUpTo hist i) : ReceivedUpTo hist' i :=
  h.imp id fun ⟨b, m, hm, hle⟩ ↦ ⟨b, m, hsub hm, hle⟩

omit [Labgob (Saved n Cmd)] in
theorem ReceivedUpTo.anti {hist : List (Event n Cmd)} {i j : Nat} (h : ReceivedUpTo hist i)
    (hji : j ≤ i) : ReceivedUpTo hist j := by
  rcases h with rfl | ⟨b, m, hm, hle⟩
  · exact Or.inl (Nat.le_zero.mp hji)
  · exact Or.inr ⟨b, m, hm, hji.trans hle⟩

/-- The messages of one incarnation. -/
structure HandoverInv (σ : Cluster n Cmd) : Prop where
  /-- Those received are on record. -/
  recorded : ∀ a, ∀ m ∈ (σ.node a).received, .received a m ∈ σ.hist
  /-- All of them go beyond the index the service started from. -/
  beyond : ∀ a, ∀ m ∈ (σ.node a).received ++ ((σ.node a).batch ++ (σ.node a).snapSends),
    (σ.node a).startIndex < m.index
  /-- The snapshot covers what it covered at the start. -/
  start_le : ∀ a, (σ.node a).startIndex ≤ (σ.node a).rf.snapIndex
  /-- A log was cut where a message had been received. -/
  cut : ∀ b s data rf, .cut b s data rf ∈ σ.hist → ReceivedUpTo σ.hist s

namespace HandoverInv

theorem step (hi : σ.HandoverInv) (hσ : σ.AtRest) (h : Trans σ act σ') : σ'.HandoverInv := by
  have hsub : σ.hist ⊆ σ'.hist := fun _ he ↦ h.hist_subset he
  have hev := fun a ↦ (h.evolves hσ a).snap
  -- an incarnation that goes on, with no new messages
  have hone : ∀ {b : Fin n} {nd : Node n Cmd}, σ'.node = (σ.setNode b nd).node →
      (∀ m ∈ nd.received, .received b m ∈ σ'.hist) →
      (∀ m ∈ nd.received ++ (nd.batch ++ nd.snapSends), nd.startIndex < m.index) →
      nd.startIndex ≤ nd.rf.snapIndex → σ'.HandoverInv := by
    intro b nd hn hrec hbey hst
    refine ⟨?_, ?_, ?_, fun c s data rf he ↦ ?_⟩
    · rw [hn]
      exact forall_setNode (P := fun a nd ↦ ∀ m ∈ nd.received, .received a m ∈ σ'.hist) hrec
        fun a m hm ↦ hsub (hi.recorded a m hm)
    · rw [hn]
      exact forall_setNode (P := fun _ nd ↦
        ∀ m ∈ nd.received ++ (nd.batch ++ nd.snapSends), nd.startIndex < m.index) hbey hi.beyond
    · rw [hn]
      exact forall_setNode (P := fun _ nd ↦ nd.startIndex ≤ nd.rf.snapIndex) hst hi.start_le
    · rcases h.mem_hist he with hold | hnew
      · exact (hi.cut c s data rf hold).mono hsub
      · cases hnew with
        | cut hm =>
          obtain ⟨m, hm, rfl⟩ := hm
          exact Or.inr ⟨c, m, hsub (hi.recorded c m hm), le_rfl⟩
  -- only the server itself changes
  have hsame : ∀ {b : Fin n} {rf : Raft n Cmd}, σ'.node = (σ.setRf b rf).node →
      σ'.HandoverInv := by
    intro b rf hn
    refine hone hn (fun m hm ↦ hsub (hi.recorded b m hm)) (hi.beyond b) ?_
    have := hev b
    rw [hn, setRf_self] at this
    exact (hi.start_le b).trans this
  have hid : σ'.node = σ.node → (∀ c s data rf, .cut c s data rf ∈ σ'.hist →
      .cut c s data rf ∈ σ.hist) → σ'.HandoverInv := by
    intro hn hcut
    refine ⟨?_, by rw [hn]; exact hi.beyond, by rw [hn]; exact hi.start_le,
      fun c s data rf he ↦ (hi.cut c s data rf (hcut c s data rf he)).mono hsub⟩
    rw [hn]
    exact fun a m hm ↦ hsub (hi.recorded a m hm)
  cases h with
  | askVote | replicateIdle | replicateAppend | replicateInstall | lose | startRefused
  | snapshotOld => exact hid rfl fun _ _ _ _ he ↦ he
  | tick | deliverVote | deliverAppend | answerVote | countVote | elect | answerAppend
  | answerInstall | start | snapshot => exact hsame rfl
  | @wake b => exact hone rfl (hi.recorded b) (hi.beyond b) (hi.start_le b)
  | @deliverInstall c k call args rf reply msg hc hr hrf =>
    have hsnap := hev call.callee
    rw [setNode_self] at hsnap
    refine hone rfl (hi.recorded call.callee) (fun m hm ↦ ?_)
      ((hi.start_le call.callee).trans hsnap)
    rcases (Raft.installSnapshot_spec hrf).2 with ⟨rfl, -⟩ | ⟨-, hlt, ⟨-, rfl, -⟩ | ⟨-, rfl, -⟩⟩
    · exact hi.beyond call.callee m (by simpa using hm)
    · exact hi.beyond call.callee m (by simpa using hm)
    · simp only [Option.toList_some, ← List.append_assoc, List.mem_append,
        List.mem_singleton] at hm
      rcases hm with hold | rfl
      · exact hi.beyond call.callee m (by simpa [or_assoc] using hold)
      · exact (hi.start_le call.callee).trans_lt hlt
  | @collect b rf batch hw hk =>
    obtain ⟨rfl, -, hbatch⟩ := Raft.guardKick_spec hk
    refine hone rfl (hi.recorded b) (fun m hm ↦ ?_) (hi.start_le b)
    simp only [List.mem_append] at hm
    rcases hm with h | h | h
    · exact hi.beyond b m (by simp [h])
    · obtain ⟨j, e, hj, -, -, rfl⟩ := hbatch m h
      exact (hi.start_le b).trans_lt hj
    · exact hi.beyond b m (by simp [h])
  | @send b m rest hb =>
    refine hone rfl (fun m' hm' ↦ ?_) (fun m' hm' ↦ ?_) (hi.start_le b)
    · rcases List.mem_append.mp hm' with hold | hnew
      · exact List.mem_append_left _ (hi.recorded b m' hold)
      · rw [List.mem_singleton.mp hnew]
        simp
    · refine hi.beyond b m' ?_
      simp only [List.mem_append, hb, List.mem_cons] at hm' ⊢
      tauto
  | @sendSnap b k m hk =>
    have hmem := List.mem_of_getElem? hk
    refine hone rfl (fun m' hm' ↦ ?_) (fun m' hm' ↦ ?_) (hi.start_le b)
    · rcases List.mem_append.mp hm' with hold | hnew
      · exact List.mem_append_left _ (hi.recorded b m' hold)
      · rw [List.mem_singleton.mp hnew]
        simp
    · refine hi.beyond b m' ?_
      simp only [List.mem_append, List.mem_singleton] at hm' ⊢
      rcases hm' with (h | rfl) | h | h
      · exact Or.inl h
      · exact Or.inr (Or.inr hmem)
      · exact Or.inr (Or.inl h)
      · exact Or.inr (Or.inr (List.mem_of_mem_eraseIdx h))
  | restart => exact hone rfl (by simp) (by simp) le_rfl

end HandoverInv

theorem handoverInv_of_reach {P : Cluster n Cmd → Action n Cmd → Cluster n Cmd → Prop}
    (h : (machine n Cmd).Reach P σ) : σ.HandoverInv := by
  refine h.invariant (I := HandoverInv) ?_ fun σ act σ' hr hi hs _ ↦
    hi.step (atRest_of_reach hr) (Trans.of_step hs)
  constructor <;> simp [machine, init, Raft.fresh]

/-! ## Without snapshots -/

/-- No service has handed over a snapshot, so no goroutine has one to send, and batches are sent in
order. -/
structure QuietInv (σ : Cluster n Cmd) : Prop where
  /-- There are no snapshots on their way to a service. -/
  snapSends : ∀ a, (σ.node a).snapSends = []
  /-- The batch is in order. -/
  batch : ∀ a, (σ.node a).batch.Pairwise fun m m' ↦ m.index < m'.index

namespace QuietInv

omit [Labgob (Saved n Cmd)] in
/-- What the reader gets is the oldest message. -/
theorem takesOldest (hi : σ.QuietInv) (act : Action n Cmd) : σ.TakesOldest act := by
  cases act with
  | send a =>
    intro m hm m' hm'
    obtain ⟨rest, hb⟩ := List.head?_eq_some_iff.mp hm
    rw [hi.snapSends a, List.append_nil, hb] at hm'
    have hsorted := hi.batch a
    rw [hb] at hsorted
    rcases List.mem_cons.mp hm' with rfl | hrest
    · exact le_rfl
    · exact (List.rel_of_pairwise_cons hsorted hrest).le
  | sendSnap a k =>
    intro m hm
    rw [hi.snapSends a] at hm
    simp at hm
  | tick | askVote | replicate | deliver | answer | lose | start | snapshot | wake | collect
  | restart => trivial

theorem step (hi : σ.QuietInv) (hs : σ.SnapInv) (hno : ∀ b s data rf, .cut b s data rf ∉ σ.hist)
    (h : Trans σ act σ') : σ'.QuietInv := by
  have hone : ∀ {b : Fin n} {nd : Node n Cmd}, σ'.node = (σ.setNode b nd).node →
      nd.snapSends = [] → nd.batch.Pairwise (fun m m' ↦ m.index < m'.index) → σ'.QuietInv := by
    intro b nd hn h1 h2
    constructor
    · rw [hn]
      exact forall_setNode (P := fun _ nd ↦ nd.snapSends = []) h1 hi.snapSends
    · rw [hn]
      exact forall_setNode (P := fun _ nd ↦ nd.batch.Pairwise fun m m' ↦ m.index < m'.index) h2
        hi.batch
  cases h with
  | askVote | replicateIdle | replicateAppend | replicateInstall | lose | startRefused
  | snapshotOld => exact ⟨hi.snapSends, hi.batch⟩
  | tick | deliverVote | deliverAppend | answerVote | countVote | elect | answerAppend
  | answerInstall | start | snapshot | wake => exact hone rfl (hi.snapSends _) (hi.batch _)
  | @deliverInstall c k call args rf reply msg hc hr hrf =>
    refine hone rfl ?_ (hi.batch call.callee)
    rcases (Raft.installSnapshot_spec hrf).2 with ⟨rfl, -⟩ | ⟨-, hlt, ⟨-, rfl, -⟩ | ⟨-, rfl, -⟩⟩
    · simpa using hi.snapSends call.callee
    · simpa using hi.snapSends call.callee
    · -- the request would carry a snapshot that was handed over
      have hsrc := hs.request call (List.mem_of_getElem? hc)
      rw [hr] at hsrc
      rcases hsrc with ⟨h0, -⟩ | ⟨b, rf, hcut⟩
      · omega
      · exact absurd hcut (hno _ _ _ _)
  | @collect b rf batch hw hk =>
    obtain ⟨-, hidx, -⟩ := Raft.guardKick_spec hk
    refine hone rfl (hi.snapSends b) ?_
    exact List.pairwise_map.mp (hidx ▸ List.pairwise_lt_range' :
      (batch.map ApplyMsg.index).Pairwise (· < ·))
  | @send b m rest hb =>
    refine hone rfl (hi.snapSends b) ?_
    have hsorted := hi.batch b
    rw [hb] at hsorted
    exact (List.pairwise_cons.mp hsorted).2
  | @sendSnap b k m hk =>
    rw [hi.snapSends b] at hk
    simp at hk
  | restart => exact hone rfl rfl List.Pairwise.nil

end QuietInv

end Cluster

end DistLabs
