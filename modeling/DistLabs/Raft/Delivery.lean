import DistLabs.Raft.Durable

/-!
# The order of delivery

Two kinds of goroutine write `applyCh`: `guardKick`, with the batch it built, and the one an
`InstallSnapshot` starts for its snapshot.  They build their messages under the lock and send them
after releasing it.  The messages are *built* in the right order: each batch continues where the
last message built left off, and a snapshot is only sent if it goes beyond that (`DeliveryInv`,
where `q` is what has been built and not yet received, oldest first).  Nothing makes them arrive in
that order, though, and `snapshot_overtakes` is a run in which a snapshot arrives before the batch
that was built before it.  So long as the reader takes the oldest message on offer, the service sees
every index once and in order (`delivery_in_order`).
-/

set_option autoImplicit false

namespace DistLabs

variable {n : Nat} {Cmd : Type}

/-! ## Order -/

/-- The index of the last message of a list, or `start` if there is none. -/
def lastIndex (start : Nat) (msgs : List (ApplyMsg Cmd)) : Nat :=
  (msgs.getLast?.map ApplyMsg.index).getD start

/-- What may come after `seen`: the command right after the last message, or a snapshot beyond all
of them. -/
def Follows (start : Nat) (seen : List (ApplyMsg Cmd)) : ApplyMsg Cmd → Prop
  | .command i _ _ => i = lastIndex start seen + 1
  | .snapshot i _ _ => ∀ m ∈ seen, m.index < i

/-- Every message follows those before it. -/
def InOrder (start : Nat) (msgs : List (ApplyMsg Cmd)) : Prop :=
  ∀ seen m rest, msgs = seen ++ m :: rest → Follows start seen m

@[simp] theorem lastIndex_nil (start : Nat) : lastIndex start ([] : List (ApplyMsg Cmd)) = start :=
  rfl

@[simp] theorem lastIndex_concat (start : Nat) (msgs : List (ApplyMsg Cmd)) (m : ApplyMsg Cmd) :
    lastIndex start (msgs ++ [m]) = m.index := by
  simp [lastIndex]

theorem inOrder_nil (start : Nat) : InOrder start ([] : List (ApplyMsg Cmd)) := by
  intro seen m rest h
  simp at h

theorem InOrder.of_append {start : Nat} {msgs more : List (ApplyMsg Cmd)}
    (h : InOrder start (msgs ++ more)) : InOrder start msgs := by
  intro seen m rest heq
  exact h seen m (rest ++ more) (by simp [heq])

theorem InOrder.concat {start : Nat} {msgs : List (ApplyMsg Cmd)} {m : ApplyMsg Cmd}
    (h : InOrder start msgs) (hm : Follows start msgs m) : InOrder start (msgs ++ [m]) := by
  intro seen x rest heq
  rcases List.eq_nil_or_concat rest with rfl | ⟨rest', y, rfl⟩
  · obtain ⟨rfl, hx⟩ := List.append_inj' heq rfl
    obtain rfl : m = x := by simpa using hx
    exact hm
  · have heq' : msgs ++ [m] = (seen ++ x :: rest') ++ [y] := by simpa using heq
    exact h seen x rest' (List.append_inj' heq' rfl).1

/-- A batch of commands with consecutive indexes continues an ordered list. -/
theorem InOrder.append_batch {start k : Nat} {batch : List (ApplyMsg Cmd)}
    (hcmd : ∀ m ∈ batch, ∃ i c T, m = .command i c T) :
    ∀ {msgs : List (ApplyMsg Cmd)}, InOrder start msgs →
      batch.map ApplyMsg.index = List.range' (lastIndex start msgs + 1) k →
      InOrder start (msgs ++ batch) ∧
        lastIndex start (msgs ++ batch) = lastIndex start msgs + k := by
  induction batch generalizing k with
  | nil =>
    intro msgs h hidx
    obtain rfl : 0 = k := by simpa using congrArg List.length hidx
    simpa using h
  | cons m batch ih =>
    intro msgs h hidx
    cases k with
    | zero => simp at hidx
    | succ k =>
      rw [List.range'_succ, List.map_cons, List.cons.injEq] at hidx
      have hm : InOrder start (msgs ++ [m]) := by
        refine h.concat ?_
        obtain ⟨i, c, T, rfl⟩ := hcmd m (by simp)
        exact hidx.1
      have := ih (fun x hx ↦ hcmd x (by simp [hx])) hm
        (k := k) (by rw [lastIndex_concat, hidx.1]; exact hidx.2)
      rw [lastIndex_concat, hidx.1, List.append_assoc, List.singleton_append] at this
      exact ⟨this.1, this.2.trans (by omega)⟩

/-! ## The invariant -/

/-- What has been received and what is on its way: `q` is the latter, oldest first. -/
structure Node.DeliveryInv (nd : Node n Cmd) : Prop where
  /-- `guardKick` builds a batch when it has sent the last one. -/
  woken : nd.woken = true → nd.batch = []
  /-- The messages were built in order, up to `lastApplied`. -/
  queue : ∃ q : List (ApplyMsg Cmd), q.Perm (nd.batch ++ nd.snapSends) ∧
    InOrder nd.startIndex (nd.received ++ q) ∧ q.Pairwise (fun m m' ↦ m.index < m'.index) ∧
    lastIndex nd.startIndex (nd.received ++ q) = max nd.rf.lastApplied nd.startIndex ∧
    ∀ m ∈ nd.received ++ q, m.index ≤ max nd.rf.lastApplied nd.startIndex
  /-- The snapshot covers what it covered at the start. -/
  start_le : nd.startIndex ≤ nd.rf.snapIndex
  /-- And nothing that no message was built for. -/
  snap_le : nd.rf.snapIndex ≤ max nd.rf.lastApplied nd.startIndex

namespace Node.DeliveryInv

variable {nd : Node n Cmd}

/-- A change of the server that leaves `lastApplied` and the boundary alone. -/
theorem of_eq (h : nd.DeliveryInv) {rf : Raft n Cmd} (hl : rf.lastApplied = nd.rf.lastApplied)
    (hs : rf.snapIndex = nd.rf.snapIndex) : Node.DeliveryInv { nd with rf := rf } := by
  refine ⟨h.woken, ?_, ?_, ?_⟩
  · simpa only [hl] using h.queue
  · simpa only [hs] using h.start_le
  · simpa only [hs, hl] using h.snap_le

/-- The snapshot moves on, within what messages were built for. -/
theorem of_snap (h : nd.DeliveryInv) {rf : Raft n Cmd} (hl : rf.lastApplied = nd.rf.lastApplied)
    (hs : nd.rf.snapIndex ≤ rf.snapIndex)
    (hle : rf.snapIndex ≤ max nd.rf.lastApplied nd.startIndex) :
    Node.DeliveryInv { nd with rf := rf } := by
  refine ⟨h.woken, ?_, h.start_le.trans hs, ?_⟩
  · simpa only [hl] using h.queue
  · simpa only [hl] using hle

/-- A server starts with nothing built. -/
theorem of_restart {rf : Raft n Cmd} (hl : rf.lastApplied = 0) :
    Node.DeliveryInv ⟨rf, false, [], [], [], rf.snapIndex⟩ :=
  ⟨by simp, ⟨[], by simp, inOrder_nil _, by simp, by simp [hl], by simp⟩, le_rfl, by simp⟩

/-- `guardKick` builds a batch. -/
theorem of_collect (h : nd.DeliveryInv) (hw : nd.woken = true) {rf : Raft n Cmd}
    {batch : List (ApplyMsg Cmd)} (hk : nd.rf.guardKick = some (rf, batch)) :
    Node.DeliveryInv { nd with rf := rf, woken := false, batch := batch } := by
  obtain ⟨rfl, hidx, hcmd⟩ := Raft.guardKick_spec hk
  obtain ⟨q, hperm, hord, hinc, hlast, hle⟩ := h.queue
  have hstart := h.start_le
  have hsnap := h.snap_le
  rw [h.woken hw, List.nil_append] at hperm
  -- the batch begins right after the last message built
  have hfrom : max nd.rf.lastApplied nd.rf.snapIndex = max nd.rf.lastApplied nd.startIndex := by
    omega
  rw [hfrom, ← hlast] at hidx
  obtain ⟨hord', hlast'⟩ := hord.append_batch
    (fun m hm ↦ by obtain ⟨j, e, -, -, -, rfl⟩ := hcmd m hm; exact ⟨_, _, _, rfl⟩) hidx
  have hnew : ∀ m ∈ batch, max nd.rf.lastApplied nd.startIndex < m.index ∧
      m.index ≤ nd.rf.commitIndex := by
    intro m hm
    have hmem : m.index ∈ batch.map ApplyMsg.index := List.mem_map_of_mem hm
    rw [hidx, List.mem_range'_1] at hmem
    omega
  refine ⟨by simp, ⟨q ++ batch, ?_, ?_, ?_, ?_, ?_⟩, hstart, ?_⟩
  · exact (List.perm_append_comm).trans (hperm.append_left batch)
  · simpa using hord'
  · refine List.pairwise_append.mpr ⟨hinc, ?_, fun m hm m' hm' ↦ ?_⟩
    · have := List.pairwise_map.mp (hidx ▸ List.pairwise_lt_range' :
        (batch.map ApplyMsg.index).Pairwise (· < ·))
      exact this
    · have h1 := hle m (by simp [hm])
      have h2 := (hnew m' hm').1
      omega
  · rw [← List.append_assoc, hlast', hlast]
    change _ = max (max nd.rf.lastApplied nd.rf.commitIndex) nd.startIndex
    omega
  · intro m hm
    change m.index ≤ max (max nd.rf.lastApplied nd.rf.commitIndex) nd.startIndex
    rw [← List.append_assoc] at hm
    rcases List.mem_append.mp hm with hold | hb
    · have := hle m hold
      omega
    · have := (hnew m hb).2
      omega
  · change nd.rf.snapIndex ≤ max (max nd.rf.lastApplied nd.rf.commitIndex) nd.startIndex
    omega

/-- An `InstallSnapshot` beyond `lastApplied` builds a snapshot message. -/
theorem of_install (h : nd.DeliveryInv) {rf : Raft n Cmd} {s : Nat} {T : Int} {data : Bytes}
    (happ : nd.rf.lastApplied < s) (hsnap : nd.rf.snapIndex < s) (hl : rf.lastApplied = s)
    (hs : rf.snapIndex = s) : Node.DeliveryInv { nd with
      rf := rf, snapSends := nd.snapSends ++ [.snapshot s T data] } := by
  obtain ⟨q, hperm, hord, hinc, hlast, hle⟩ := h.queue
  have hstart := h.start_le
  -- it goes beyond every message so far
  have hbeyond : ∀ m ∈ nd.received ++ q, m.index < s := by
    intro m hm
    have := hle m hm
    omega
  have hmax : max rf.lastApplied nd.startIndex = s := by omega
  refine ⟨h.woken, ⟨q ++ [.snapshot s T data], ?_, ?_, ?_, ?_, ?_⟩, ?_, ?_⟩
  · rw [← List.append_assoc]
    exact hperm.append_right _
  · rw [← List.append_assoc]
    exact hord.concat hbeyond
  · refine List.pairwise_append.mpr ⟨hinc, by simp, fun m hm m' hm' ↦ ?_⟩
    rw [List.mem_singleton.mp hm']
    exact hbeyond m (by simp [hm])
  · rw [← List.append_assoc, lastIndex_concat]
    exact hmax.symm
  · intro m hm
    rw [← List.append_assoc] at hm
    change m.index ≤ max rf.lastApplied nd.startIndex
    rw [hmax]
    rcases List.mem_append.mp hm with hold | hnew
    · exact (hbeyond m hold).le
    · rw [List.mem_singleton.mp hnew]
      exact le_rfl
  · change nd.startIndex ≤ rf.snapIndex
    omega
  · change rf.snapIndex ≤ max rf.lastApplied nd.startIndex
    omega

/-- The reader receives `m` while nothing older is on its way. -/
theorem of_receive (h : nd.DeliveryInv) {m : ApplyMsg Cmd} {batch sends : List (ApplyMsg Cmd)}
    (hperm : (nd.batch ++ nd.snapSends).Perm (m :: (batch ++ sends)))
    (hold : ∀ m' ∈ batch ++ sends, m.index ≤ m'.index) (hwoken : nd.woken = true → batch = []) :
    Node.DeliveryInv { nd with
      batch := batch, snapSends := sends, received := nd.received ++ [m] } := by
  obtain ⟨q, hq, hord, hinc, hlast, hle⟩ := h.queue
  -- what is received is the oldest message on its way
  obtain ⟨q', rfl⟩ : ∃ q', q = m :: q' := by
    cases q with
    | nil => simpa using hq.trans hperm
    | cons x q' =>
      have hqm := hq.trans hperm
      rcases List.mem_cons.mp (hqm.mem_iff.mp (List.mem_cons_self : x ∈ x :: q')) with rfl | hx
      · exact ⟨q', rfl⟩
      · rcases List.mem_cons.mp (hqm.mem_iff.mpr (List.mem_cons_self : m ∈ m :: _)) with rfl | hm
        · exact ⟨q', rfl⟩
        · have h1 := (List.pairwise_cons.mp hinc).1 m hm
          have h2 := hold x hx
          omega
  have heq : nd.received ++ m :: q' = nd.received ++ [m] ++ q' := by simp
  rw [heq] at hord hlast hle
  refine ⟨hwoken, ⟨q', ?_, hord, (List.pairwise_cons.mp hinc).2, hlast, hle⟩, h.start_le, h.snap_le⟩
  exact (List.perm_cons m).mp (hq.trans hperm)

end Node.DeliveryInv

/-! ## Sections that do not touch `lastApplied` and the boundary -/

namespace Raft

variable [Labgob (Saved n Cmd)]

theorem requestVote_applied {rf rf' : Raft n Cmd} {args : RequestVoteArgs n}
    {reply : RequestVoteReply} (h : rf.requestVote args = some (rf', reply)) :
    rf'.lastApplied = rf.lastApplied ∧ rf'.snapIndex = rf.snapIndex := by
  rcases (requestVote_spec h).2 with ⟨-, rfl⟩ | ⟨-, -, -, -, rfl⟩ <;> simp [persist]

theorem appendEntries_applied {rf rf' : Raft n Cmd} {args : AppendEntriesArgs n Cmd}
    {reply : AppendEntriesReply} (h : rf.appendEntries args = some (rf', reply)) :
    rf'.lastApplied = rf.lastApplied ∧ rf'.snapIndex = rf.snapIndex := by
  rcases appendEntries_spec h with ⟨rfl, -⟩ | ⟨-, -, -, -, w, rf₁, ⟨rfl, -⟩ | rfl, rfl⟩ <;>
    simp [persist]

theorem singleAppendReply_applied {rf rf' : Raft n Cmd} {i : Fin n}
    {args : AppendEntriesArgs n Cmd} {reply : AppendEntriesReply}
    (h : rf.singleAppendReply i args reply = some rf') :
    rf'.lastApplied = rf.lastApplied ∧ rf'.snapIndex = rf.snapIndex := by
  rcases singleAppendReply_spec h with rfl | ⟨-, -, -, -, next, v, -, -, rfl⟩ |
    ⟨-, -, -, m, next, rf₁, -, -, rfl, rfl |
    ⟨M, e, c, -, -, -, -, -, -, rfl⟩⟩ <;> simp [bEffortKick]

theorem helpInstallReply_applied {rf rf' : Raft n Cmd} {i : Fin n} {args : InstallSnapshotArgs n}
    {reply : Int} (h : rf.helpInstallReply i args reply = some rf') :
    rf'.lastApplied = rf.lastApplied ∧ rf'.snapIndex = rf.snapIndex := by
  rcases helpInstallReply_spec h with rfl | ⟨-, m, next, -, -, rfl⟩ <;> simp

end Raft

namespace Cluster

/-- Among the messages that the goroutines of server `a` are trying to send, none is older than
`m`. -/
def Oldest (σ : Cluster n Cmd) (a : Fin n) (m : ApplyMsg Cmd) : Prop :=
  ∀ m' ∈ (σ.node a).batch ++ (σ.node a).snapSends, m.index ≤ m'.index

/-- If the action is a receive from `applyCh`, it takes the oldest message on offer. -/
def TakesOldest (σ : Cluster n Cmd) : Action n Cmd → Prop
  | .send a => ∀ m ∈ (σ.node a).batch.head?, σ.Oldest a m
  | .sendSnap a k => ∀ m ∈ (σ.node a).snapSends[k]?, σ.Oldest a m
  | _ => True

instance (σ : Cluster n Cmd) (a : Fin n) (m : ApplyMsg Cmd) : Decidable (σ.Oldest a m) :=
  inferInstanceAs (Decidable (∀ _ ∈ _, _))

instance (σ : Cluster n Cmd) : (act : Action n Cmd) → Decidable (σ.TakesOldest act)
  | .send _ | .sendSnap _ _ => inferInstanceAs (Decidable (∀ _ ∈ _, _))
  | .tick _ | .askVote _ _ | .replicate _ | .deliver _ | .answer _ | .lose _ | .start _ _
  | .snapshot _ _ _ | .wake _ | .collect _ | .restart _ => isTrue trivial

variable [Labgob (Saved n Cmd)]

/-- **Every action keeps the order**, if nothing is overtaken. -/
theorem Trans.delivery {σ σ' : Cluster n Cmd} {act : Action n Cmd} (h : Trans σ act σ')
    (hσ : σ.AtRest) (hi : ∀ a, (σ.node a).DeliveryInv) (hno : σ.TakesOldest act) (a : Fin n) :
    (σ'.node a).DeliveryInv := by
  have hone : ∀ {b : Fin n} {nd : Node n Cmd}, nd.DeliveryInv →
      ((σ.setNode b nd).node a).DeliveryInv := fun hb ↦
    forall_setNode (P := fun _ nd ↦ nd.DeliveryInv) hb hi a
  cases h with
  | @tick b => exact hone ((hi b).of_eq rfl rfl)
  | askVote | replicateIdle | replicateAppend | replicateInstall | lose | startRefused
  | snapshotOld => exact hi a
  | deliverVote _ _ hr =>
    obtain ⟨h1, h2⟩ := Raft.requestVote_applied hr
    exact hone ((hi _).of_eq h1 h2)
  | deliverAppend _ _ hr =>
    obtain ⟨h1, h2⟩ := Raft.appendEntries_applied hr
    exact hone ((hi _).of_eq h1 h2)
  | @deliverInstall c k call args rf reply msg hc hr hins =>
    rcases (Raft.installSnapshot_spec hins).2 with ⟨rfl, rfl, -⟩ | ⟨-, hlt, hcase⟩
    · simpa using hone ((hi call.callee).of_eq (by simp) (by simp))
    · rcases hcase with ⟨hle, rfl, rfl⟩ | ⟨happ, rfl, rfl⟩
      · have hl : ((σ.node call.callee).rf.restored args).lastApplied =
            (σ.node call.callee).rf.lastApplied := by simp [Raft.restored, Raft.persist]
        simpa using hone ((hi call.callee).of_snap hl hlt.le (hle.trans (le_max_left _ _)))
      · exact hone ((hi call.callee).of_install happ hlt rfl rfl)
  | answerVote => exact hone ((hi _).of_eq (by simp) (by simp))
  | countVote => exact hone ((hi _).of_eq (by simp) (by simp))
  | elect => exact hone ((hi _).of_eq rfl rfl)
  | answerAppend _ _ _ hr =>
    obtain ⟨h1, h2⟩ := Raft.singleAppendReply_applied hr
    exact hone ((hi _).of_eq h1 h2)
  | answerInstall _ _ _ hr =>
    obtain ⟨h1, h2⟩ := Raft.helpInstallReply_applied hr
    exact hone ((hi _).of_eq h1 h2)
  | start => exact hone ((hi _).of_eq rfl rfl)
  | @snapshot b index data e hm hlt he =>
    -- the service names an index it has received
    obtain ⟨m, hm, rfl⟩ := hm
    obtain ⟨q, -, -, -, -, hle⟩ := (hi b).queue
    exact hone ((hi b).of_snap rfl hlt.le (hle m (by simp [hm])))
  | @wake b hw hb =>
    refine hone ⟨fun _ ↦ hb, (hi b).queue, (hi b).start_le, (hi b).snap_le⟩
  | @collect b rf batch hw hk => exact hone ((hi b).of_collect hw hk)
  | @send b m rest hb =>
    have hold := hno m (by simp [hb])
    rw [Oldest, hb] at hold
    refine hone ((hi b).of_receive (by rw [hb]; rfl)
      (fun m' hm' ↦ hold m' (List.mem_cons_of_mem _ hm')) fun hw ↦ ?_)
    rw [(hi b).woken hw] at hb
    simp at hb
  | @sendSnap b k m hm =>
    have hperm : ((σ.node b).batch ++ (σ.node b).snapSends).Perm
        (m :: ((σ.node b).batch ++ (σ.node b).snapSends.eraseIdx k)) := by
      obtain ⟨hlt, rfl⟩ := List.getElem?_eq_some_iff.mp hm
      exact ((List.getElem_cons_eraseIdx_perm hlt).symm.append_left _).trans List.perm_middle
    exact hone ((hi b).of_receive hperm
      (fun m' hm' ↦ hno m hm m' (hperm.mem_iff.mpr (List.mem_cons_of_mem _ hm'))) (hi b).woken)
  | @restart b rf hmake =>
    obtain rfl := hσ.make hmake
    exact hone (Node.DeliveryInv.of_restart rfl)

theorem delivery_of_reach {P : Cluster n Cmd → Action n Cmd → Cluster n Cmd → Prop}
    {σ : Cluster n Cmd} (hP : ∀ σ act σ', P σ act σ' → σ.TakesOldest act)
    (h : (machine n Cmd).Reach P σ) (a : Fin n) : (σ.node a).DeliveryInv := by
  refine h.invariant (I := fun σ ↦ ∀ a, (σ.node a).DeliveryInv) ?_
    (fun σ act σ' hr hi hs hp ↦ (Trans.of_step hs).delivery (atRest_of_reach hr) hi (hP _ _ _ hp)) a
  exact fun a ↦ Node.DeliveryInv.of_restart rfl

/-- **Delivery in order.**  In a run in which the reader always takes the oldest message that the
goroutines of its server offer, what one incarnation's service receives is in order: each command
has the index after that of the last message, or after the snapshot it started from, and each
snapshot goes beyond everything before it. -/
theorem delivery_in_order {σ : Cluster n Cmd}
    (h : (machine n Cmd).Reach (fun σ act _ ↦ σ.TakesOldest act) σ) (a : Fin n) :
    InOrder (σ.node a).startIndex (σ.node a).received := by
  obtain ⟨q, -, hord, -⟩ := (delivery_of_reach (fun _ _ _ hp ↦ hp) h a).queue
  exact hord.of_append

/-- Server `0` of three leads term `1`; it replicates a command to server `1`, commits it and lets
`1` know. -/
def firstCommit : List (Action 3 Nat) :=
  firstElection ++ [.start 0 (some 10), .replicate 0, .deliver 1, .answer 1, .replicate 0,
    .deliver 2, .answer 2]

theorem delivery_in_order_firstCommit :
    ∃ σ : Cluster 3 Nat, (machine 3 Nat).Reach (fun σ act _ ↦ σ.TakesOldest act) σ ∧
      (σ.node 1).received = [.command 1 (some 10) 1] ∧
      InOrder (σ.node 1).startIndex (σ.node 1).received := by
  obtain ⟨σ, hσ, hQ⟩ := Machine.exists_reach_of_exec (M := machine 3 Nat)
    (P := fun σ act _ ↦ σ.TakesOldest act)
    (Q := fun σ ↦ (σ.node 1).received = [.command 1 (some 10) 1])
    (firstCommit ++ [.wake 1, .collect 1, .send 1]) (by decide +kernel)
  exact ⟨σ, hσ, hQ, delivery_in_order hσ 1⟩

/-- Server `1` has built its batch but not sent it when the leader, which has committed a second
command with the help of server `2` and compacted both, sends it a snapshot. -/
def overtaken : List (Action 3 Nat) :=
  firstCommit ++ [.wake 1, .collect 1, .start 0 (some 20), .replicate 1, .deliver 3, .answer 3,
    .wake 0, .collect 0, .send 0, .send 0, .snapshot 0 2 [7], .replicate 0, .deliver 4,
    .sendSnap 1 0, .send 1]

/-- **A snapshot overtakes a batch**: the service of server `1` receives the snapshot of the first
two commands and then the first of them. -/
theorem snapshot_overtakes : ∃ σ : Cluster 3 Nat, (machine 3 Nat).Reach (fun _ _ _ ↦ True) σ ∧
    (σ.node 1).received = [.snapshot 2 1 [7], .command 1 (some 10) 1] ∧
    ¬ InOrder (σ.node 1).startIndex (σ.node 1).received := by
  obtain ⟨σ, hσ, hQ⟩ := Machine.exists_reach_of_exec (M := machine 3 Nat) (P := fun _ _ _ ↦ True)
    (Q := fun σ ↦ (σ.node 1).received = [.snapshot 2 1 [7], .command 1 (some 10) 1])
    overtaken (by decide +kernel)
  refine ⟨σ, hσ, hQ, fun hord ↦ ?_⟩
  rw [hQ] at hord
  have : 1 = 2 + 1 := hord [.snapshot 2 1 [7]] (.command 1 (some 10) 1) [] rfl
  omega

end Cluster

end DistLabs
