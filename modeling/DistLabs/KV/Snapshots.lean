import DistLabs.KV.System

/-!
# The snapshots on disk

A server takes a snapshot of whatever its maps hold after the messages it happened to receive.  If
it receives them in order, its maps hold the result of a prefix of the committed commands
(`ServerInv`), so every snapshot that is handed to Raft is right, and so is every snapshot that is
saved, sent, taken over and read back, since it is one of those (`SnapshotsInv`).

The order is not guaranteed, and one message out of order becomes durable: in `skipped` a server
receives the second command before the snapshot of the first, takes a snapshot of its own, and saves
a state in which the first command never happened (`snapshot_without_first_command`).
-/

set_option autoImplicit false

namespace DistLabs.KV

variable {n : Nat}

open Cluster (CommittedAt SnapInv)

/-! ## What a right snapshot is -/

/-- The committed commands begin with `ops`. -/
def CommittedLog (hist : List (Event n Op)) (ops : List Op) : Prop :=
  ∀ i op, ops[i]? = some op → ∃ T, CommittedAt hist (i + 1) ⟨T, some op⟩

/-- This is the snapshot of the first `s` committed commands. -/
def Right [Labgob Image] (hist : List (Event n Op)) (s : Nat) (data : Bytes) : Prop :=
  ∃ ops, CommittedLog hist ops ∧ ops.length = s ∧ data = Labgob.encode (image ops)

/-- The message `guardApply` has received and not dealt with. -/
def Guard.inHand : Guard → List (ApplyMsg Op)
  | .holding m => [m]
  | .receiving | .notifying _ _ | .checking => []

/-- Whether the size check is still to come. -/
def Guard.checks : Guard → Bool
  | .checking => true
  | .notifying _ checks => checks
  | .receiving | .holding _ => false

section

variable [Labgob Image]

/-- A key-value server on its Raft server. -/
structure ServerInv (hist : List (Event n Op)) (nd : Node n Op) (kv : KVServer) : Prop where
  /-- Its state is the result of the first committed commands. -/
  image : ∃ ops, CommittedLog hist ops ∧ kv.toImage = image ops
  /-- It has dealt with all messages it received, but for the one in hand. -/
  place : ∃ seen, nd.received = seen ++ kv.guard.inHand ∧
    lastIndex nd.startIndex seen = kv.lastApplied
  /-- At the size check the last index is that of a message. -/
  heard : kv.guard.checks = true → ∃ m ∈ nd.received, m.index = kv.lastApplied
  /-- The snapshots it has still to hand over are right, and for indexes it has received. -/
  pending : ∀ p ∈ kv.snapshots, Right hist p.1 p.2 ∧ ∃ m ∈ nd.received, m.index = p.1

/-- All servers, and all snapshots that were ever handed over. -/
structure SnapshotsInv (σ : System n) : Prop where
  /-- The servers. -/
  server : ∀ a, ServerInv σ.raft.hist (σ.raft.node a) (σ.server a)
  /-- The snapshots. -/
  cut : ∀ b s data rf, .cut b s data rf ∈ σ.raft.hist → Right σ.raft.hist s data

section Mono

variable {hist hist' : List (Event n Op)} (hsub : hist ⊆ hist')
include hsub

omit [Labgob Image] in
theorem CommittedLog.mono {ops : List Op} (h : CommittedLog hist ops) : CommittedLog hist' ops :=
  fun i op hi ↦ (h i op hi).imp fun _ hT ↦ hT.mono hsub

theorem Right.mono {s : Nat} {data : Bytes} (h : Right hist s data) : Right hist' s data :=
  h.imp fun _ hops ↦ ⟨hops.1.mono hsub, hops.2⟩

end Mono

omit [Labgob Image] in
theorem CommittedLog.concat {hist : List (Event n Op)} {ops : List Op} {op : Op} {T : Int}
    (h : CommittedLog hist ops) (hc : CommittedAt hist (ops.length + 1) ⟨T, some op⟩) :
    CommittedLog hist (ops ++ [op]) := by
  intro i op' hi
  rcases List.getElem?_concat_cases hi with hold | ⟨rfl, rfl⟩
  · exact h i op' hold
  · exact ⟨T, hc⟩

/-! ## One server -/

namespace ServerInv

variable {hist hist' : List (Event n Op)} {nd nd' : Node n Op} {kv kv' : KVServer}

/-- Nothing happens to the state, to the messages or to the snapshots. -/
theorem congr (h : ServerInv hist nd kv) (hsub : hist ⊆ hist')
    (hnd : nd'.received = nd.received ∧ nd'.startIndex = nd.startIndex)
    (him : kv'.toImage = kv.toImage)
    (hg : kv'.guard.inHand = kv.guard.inHand ∧ kv'.guard.checks = kv.guard.checks)
    (hsn : kv'.snapshots ⊆ kv.snapshots) : ServerInv hist' nd' kv' := by
  have happ := congrArg Image.lastApplied him
  refine ⟨?_, ?_, ?_, fun p hp ↦ ?_⟩
  · obtain ⟨ops, hlog, hops⟩ := h.image
    exact ⟨ops, hlog.mono hsub, him.trans hops⟩
  · rw [hnd.1, hnd.2, hg.1, happ]
    exact h.place
  · rw [hnd.1, hg.2, happ]
    exact h.heard
  · rw [hnd.1]
    exact (h.pending p (hsn hp)).imp (Right.mono hsub) id

/-- A message is received. -/
theorem receive (h : ServerInv hist nd kv) (hsub : hist ⊆ hist') {msg : ApplyMsg Op}
    (hr : kv.receive msg = some kv') (hrec : nd'.received = nd.received ++ [msg])
    (hstart : nd'.startIndex = nd.startIndex) : ServerInv hist' nd' kv' := by
  obtain ⟨hg, rfl⟩ := KVServer.receive_spec hr
  obtain ⟨ops, hlog, hops⟩ := h.image
  refine ⟨⟨ops, hlog.mono hsub, hops⟩, ?_, by simp [Guard.checks], fun p hp ↦ ?_⟩
  · obtain ⟨seen, hseen, hlast⟩ := h.place
    rw [hg, Guard.inHand, List.append_nil] at hseen
    exact ⟨seen, by rw [hrec, hseen]; rfl, hstart ▸ hlast⟩
  · obtain ⟨hright, m, hm, hidx⟩ := h.pending p hp
    exact ⟨hright.mono hsub, m, hrec ▸ List.mem_append_left _ hm, hidx⟩

/-- **The next command is applied.** -/
theorem command (h : ServerInv hist nd kv) (hord : InOrder nd.startIndex nd.received) {index : Nat}
    {op : Op} {T : Int} (hg : kv.guard = .holding (.command index (some op) T))
    (hc : CommittedAt hist index ⟨T, some op⟩) :
    ServerInv hist nd (kv.applyCommand index op) := by
  obtain ⟨seen, hseen, hlast⟩ := h.place
  rw [hg] at hseen
  have hidx : index = lastIndex nd.startIndex seen + 1 := hord seen _ [] hseen
  obtain ⟨ops, hlog, hops⟩ := h.image
  have happ : kv.lastApplied = ops.length := congrArg Image.lastApplied hops
  obtain rfl : index = ops.length + 1 := by omega
  have him := KVServer.applyCommand_toImage kv (ops.length + 1) op
  refine ⟨⟨ops ++ [op], hlog.concat hc, ?_⟩, ⟨nd.received, ?_, ?_⟩,
    fun _ ↦ ⟨.command (ops.length + 1) (some op) T, ?_, ?_⟩, ?_⟩
  · rw [him, KV.image, replay_concat, List.length_append]
    exact congrArg (fun s ↦ Image.mk (Store.apply s op) _) (congrArg Image.toStore hops)
  · rw [KVServer.applyCommand]
    split <;> simp [Guard.inHand]
  · rw [hseen, congrArg Image.lastApplied him]
    exact lastIndex_concat ..
  · rw [hseen]
    exact List.mem_append_right _ (List.mem_singleton_self _)
  · exact (congrArg Image.lastApplied him).symm
  · rw [KVServer.applyCommand]
    split <;> exact h.pending

/-- A snapshot is taken over. -/
theorem snapshot (h : ServerInv hist nd kv) {index : Nat} {T : Int} {data : Bytes}
    (hg : kv.guard = .holding (.snapshot index T data)) (hd : Right hist index data) :
    ServerInv hist nd
      { kv.decodeSnapshot data with lastApplied := index, guard := .receiving } := by
  obtain ⟨ops, hlog, rfl, rfl⟩ := hd
  obtain ⟨seen, hseen, -⟩ := h.place
  rw [hg] at hseen
  rw [KVServer.decodeSnapshot_encode]
  exact ⟨⟨ops, hlog, rfl⟩, ⟨nd.received, by simp [Guard.inHand], hseen ▸ lastIndex_concat ..⟩,
    by simp [Guard.checks], h.pending⟩

/-- The size check, which may start a call of `Snapshot`. -/
theorem check (h : ServerInv hist nd kv) {maxraftstate : Int} {size : Nat}
    (hc : kv.check maxraftstate size = some kv') : ServerInv hist nd kv' := by
  obtain ⟨hg, hcase⟩ := KVServer.check_spec hc
  have hplace := h.place
  rw [hg] at hplace
  rcases hcase with rfl | ⟨-, rfl⟩
  · exact ⟨h.image, hplace, by simp [Guard.checks], h.pending⟩
  · refine ⟨h.image, hplace, by simp [Guard.checks], fun p hp ↦ ?_⟩
    rcases List.mem_append.mp hp with hold | hnew
    · exact h.pending p hold
    · obtain ⟨ops, hlog, hops⟩ := h.image
      rw [List.mem_singleton.mp hnew]
      exact ⟨⟨ops, hlog, (congrArg Image.lastApplied hops).symm, congrArg Labgob.encode hops⟩,
        h.heard (by rw [hg]; rfl)⟩

/-- A server starts from the snapshot on its disk. -/
theorem restart {s : Nat} {data : Bytes} (hd : s = 0 ∧ data = [] ∨ Right hist s data)
    (hrec : nd.received = []) (hstart : nd.startIndex = s) :
    ServerInv hist nd (.startKVServer data) := by
  rw [KVServer.startKVServer]
  rcases hd with ⟨rfl, rfl⟩ | ⟨ops, hlog, rfl, rfl⟩
  · rw [KVServer.decodeSnapshot, if_pos rfl]
    exact ⟨⟨[], by simp [CommittedLog], rfl⟩, ⟨[], by simp [hrec, Guard.inHand], hstart⟩,
      by simp [Guard.checks], by simp⟩
  · rw [KVServer.decodeSnapshot_encode]
    exact ⟨⟨ops, hlog, rfl⟩, ⟨[], by simp [hrec, Guard.inHand], hstart⟩,
      by simp [Guard.checks], by simp⟩

/-- A section of the server itself. -/
theorem work (h : ServerInv hist nd kv) (hord : InOrder nd.startIndex nd.received)
    (hcom : ∀ i c T, .command i c T ∈ nd.received → CommittedAt hist i ⟨T, c⟩)
    (hright : ∀ i T data, .snapshot i T data ∈ nd.received → Right hist i data)
    {task : KVServer.Task} (hw : kv.Works task kv') : ServerInv hist nd kv' := by
  have hhand : ∀ {m}, kv.guard = .holding m → m ∈ nd.received := by
    intro m hg
    obtain ⟨seen, hseen, -⟩ := h.place
    rw [hseen, hg]
    exact List.mem_append_right _ (List.mem_singleton_self m)
  cases hw with
  | take | read | timeout | leave =>
    exact h.congr (fun _ he ↦ he) ⟨rfl, rfl⟩ rfl ⟨rfl, rfl⟩ (fun _ hp ↦ hp)
  | notify hg =>
    refine h.congr (fun _ he ↦ he) ⟨rfl, rfl⟩ rfl ?_ (fun _ hp ↦ hp)
    rw [hg]
    dsimp only
    split <;> simp_all [Guard.inHand, Guard.checks]
  | command hg => exact h.command hord hg (hcom _ _ _ (hhand hg))
  | snapshot hg => exact h.snapshot hg (hright _ _ _ (hhand hg))

end ServerInv

/-! ## The system -/

namespace SnapshotsInv

variable [Labgob (Saved n Op)] {maxraftstate : Int} {σ σ' : System n} {act : Act n}

omit [Labgob (Saved n Op)] in
/-- A snapshot that has a source is right. -/
theorem right_of_sourced (h : SnapshotsInv σ) {s : Nat} {data : Bytes}
    (hs : Cluster.Sourced σ.raft.hist s data) : s = 0 ∧ data = [] ∨ Right σ.raft.hist s data :=
  hs.imp id fun ⟨_, _, hcut⟩ ↦ h.cut _ _ _ _ hcut

/-- **Every action keeps the snapshots right**, on a cluster that delivers in order. -/
theorem step (h : SnapshotsInv σ) (hs : System.Step maxraftstate σ σ' act)
    (hrest : σ.raft.AtRest) {g : RaftLedger n Op} (hg : Rel σ.raft g) (hsnap : σ.raft.SnapInv)
    (hord : ∀ a, InOrder (σ.raft.node a).startIndex (σ.raft.node a).received) :
    SnapshotsInv σ' := by
  have hsub : σ.raft.hist ⊆ σ'.raft.hist := by
    intro e he
    rcases hs.raft_cases with hsame | ⟨act', hr, -⟩
    · rwa [hsame]
    · exact (Cluster.Trans.of_step hr).hist_subset he
  -- the snapshots on record, if the cluster acts
  have hcut : ∀ {act' : Action n Op}, σ.raft.step act' = some σ'.raft →
      (∀ b s data, act' = .snapshot b s data → Right σ'.raft.hist s data) →
      ∀ b s data rf, .cut b s data rf ∈ σ'.raft.hist → Right σ'.raft.hist s data := by
    intro act' hr hnew b s data rf he
    rcases (Cluster.Trans.of_step hr).cut_cases he with hold | hact
    · exact (h.cut b s data rf hold).mono hsub
    · exact hnew b s data hact
  -- it is enough to look at the place where the action happens
  have hone : ∀ {b : Fin n} {kv : KVServer}, σ'.server = Function.update σ.server b kv →
      (∀ a, a ≠ b → (σ'.raft.node a).received = (σ.raft.node a).received ∧
        (σ'.raft.node a).startIndex = (σ.raft.node a).startIndex) →
      ServerInv σ'.raft.hist (σ'.raft.node b) kv →
      ∀ a, ServerInv σ'.raft.hist (σ'.raft.node a) (σ'.server a) := by
    intro b kv hkv hother hb a
    rw [hkv]
    by_cases ha : a = b
    · subst ha
      rwa [Function.update_self]
    · rw [Function.update_of_ne ha]
      exact (h.server a).congr hsub (hother a ha) rfl ⟨rfl, rfl⟩ (fun _ hp ↦ hp)
  cases hs with
  | @raft act' hint hr hkv =>
    refine ⟨fun a ↦ ?_, hcut hr (by rintro b s data rfl; simp [internal] at hint)⟩
    rw [hkv]
    refine (h.server a).congr hsub ((Cluster.Trans.of_step hr).service_same (a := a) ?_ ?_ ?_) rfl
      ⟨rfl, rfl⟩ (fun _ hp ↦ hp)
    · rintro rfl; simp [internal] at hint
    · rintro k rfl; simp [internal] at hint
    · rintro rfl; simp [internal] at hint
  | @handle b op hr hkv =>
    refine ⟨hone hkv (fun a _ ↦ by rw [hr]; exact ⟨rfl, rfl⟩) ?_, by rw [hr]; exact h.cut⟩
    exact (h.server b).congr hsub (by rw [hr]; exact ⟨rfl, rfl⟩) rfl ⟨rfl, rfl⟩ (fun _ hp ↦ hp)
  | @start b k hd isLeader kv hh hst hr hkv =>
    obtain ⟨-, -, -, rfl⟩ := KVServer.started_spec hst
    have hsame := fun a ↦ (Cluster.Trans.of_step hr).service_same (a := a) (by simp) (by simp)
      (by simp)
    exact ⟨hone hkv (fun a _ ↦ hsame a)
      ((h.server b).congr hsub (hsame b) rfl ⟨rfl, rfl⟩ (fun _ hp ↦ hp)), hcut hr (by simp)⟩
  | @work b task kv hw hr hkv =>
    refine ⟨hone hkv (fun a _ ↦ by rw [hr]; exact ⟨rfl, rfl⟩) ?_, by rw [hr]; exact h.cut⟩
    rw [hr]
    refine (h.server b).work (hord b) (fun i c T hm ↦ ?_) (fun i T data hm ↦ ?_) hw
    · exact (Cluster.committedAt_iff hg hsnap).mpr
        ((hg.node b).msgs _ (List.mem_append_left _ hm)).1
    · obtain ⟨hpos, hsrc⟩ := hsnap.msg b _ (List.mem_append_left _ hm)
      rcases h.right_of_sourced hsrc with ⟨h0, -⟩ | hright
      · omega
      · exact hright
  | @receive b msg kv hm hk hr hkv =>
    have ht := Cluster.Trans.of_step hr
    obtain ⟨hrec, hstart⟩ := ht.service_send hm
    exact ⟨hone hkv (fun a ha ↦ ht.service_same (by simpa using ha.symm) (by simp) (by simp))
      ((h.server b).receive hsub hk hrec hstart), hcut hr (by simp)⟩
  | @receiveSnap b k msg kv hm hk hr hkv =>
    have ht := Cluster.Trans.of_step hr
    obtain ⟨hrec, hstart⟩ := ht.service_sendSnap hm
    exact ⟨hone hkv (fun a ha ↦ ht.service_same (by simp) (by simp [ha.symm]) (by simp))
      ((h.server b).receive hsub hk hrec hstart), hcut hr (by simp)⟩
  | @check b size kv hc hr hkv =>
    refine ⟨hone hkv (fun a _ ↦ by rw [hr]; exact ⟨rfl, rfl⟩) ?_, by rw [hr]; exact h.cut⟩
    rw [hr]
    exact (h.server b).check hc
  | @snapshot b k index data hp hr hkv =>
    have hsame := fun a ↦ (Cluster.Trans.of_step hr).service_same (a := a) (by simp) (by simp)
      (by simp)
    refine ⟨hone hkv (fun a _ ↦ hsame a) ((h.server b).congr hsub (hsame b) rfl ⟨rfl, rfl⟩
      (List.eraseIdx_subset)), hcut hr ?_⟩
    rintro _ _ _ ⟨⟩
    exact ((h.server b).pending _ (List.mem_of_getElem? hp)).1.mono hsub
  | @restart b hr hkv =>
    have ht := Cluster.Trans.of_step hr
    obtain ⟨hrec, hstart⟩ := ht.service_restart
    refine ⟨hone hkv (fun a ha ↦ ht.service_same (by simp) (by simp) (by simpa using ha.symm)) ?_,
      hcut hr (by simp)⟩
    rw [(hrest b).2.onDisk.snapshot_eq]
    exact .restart ((h.right_of_sourced (hsnap.node b)).imp id (Right.mono hsub)) hrec
      (hstart.trans (ht.restart_snap hrest))

end SnapshotsInv

namespace System

variable [Labgob (Saved n Op)] {maxraftstate : Int} {σ : System n}

theorem snapshotsInv_of_reach
    (h : (machine n maxraftstate).Reach
      (fun σ act σ' ↦ σ'.raft.MajorityBacked ∧ σ.TakesOldest act) σ) : SnapshotsInv σ := by
  refine h.invariant (I := SnapshotsInv) ⟨fun a ↦ ?_, ?_⟩ fun σ act σ' hr hi hs _ ↦ ?_
  · exact .restart (Or.inl ⟨rfl, rfl⟩) rfl rfl
  · simp [machine, init, Cluster.init]
  · have hraft := reach_raft hr
    obtain ⟨g, hg, -⟩ := Cluster.rel_of_reach (fun _ _ _ hp ↦ hp.1) hraft
    refine hi.step (.of_step hs) (Cluster.atRest_of_reach hraft) hg
      (Cluster.snapInv_of_reach hraft) fun a ↦ ?_
    obtain ⟨q, -, hord, -⟩ := (Cluster.delivery_of_reach (fun _ _ _ hp ↦ hp.2) hraft a).queue
    exact hord.of_append

/-- A service names to `Snapshot` an index it has received, as Raft expects. -/
theorem snapshot_received
    (h : (machine n maxraftstate).Reach
      (fun σ act σ' ↦ σ'.raft.MajorityBacked ∧ σ.TakesOldest act) σ) {a : Fin n} {index : Nat}
    {data : Bytes} (hp : (index, data) ∈ (σ.server a).snapshots) :
    ∃ m ∈ (σ.raft.node a).received, m.index = index :=
  (((snapshotsInv_of_reach h).server a).pending _ hp).2

/-- **Snapshots are never wrong**, if elections are won by majorities and the reader of `applyCh`
takes the oldest message on offer: what a server has saved as the snapshot of its first `s` indexes
decodes to the two maps that the committed commands `1..s` lead to. -/
theorem snapshots_never_wrong
    (h : (machine n maxraftstate).Reach
      (fun σ act σ' ↦ σ'.raft.MajorityBacked ∧ σ.TakesOldest act) σ) (a : Fin n)
    {saved : Saved n Op} (hne : (σ.raft.node a).rf.persister.raftstate ≠ [])
    (hdec : Labgob.decode (σ.raft.node a).rf.persister.raftstate = some saved)
    (hpos : 0 < saved.snapIndex) :
    ∃ ops : List Op, ops.length = saved.snapIndex ∧
      (∀ i < saved.snapIndex, ∀ c, (∃ T, CommittedAt σ.raft.hist (i + 1) ⟨T, c⟩) ↔ c = ops[i]?) ∧
      ∃ im : Image, Labgob.decode (σ.raft.node a).rf.persister.snapshot = some im ∧
        im.kvMap = (replay ops).kvMap ∧ im.lastSeq = (replay ops).lastSeq := by
  have hraft := reach_raft h
  have hsnap := Cluster.snapInv_of_reach hraft
  obtain ⟨g, hg, -⟩ := Cluster.rel_of_reach (fun _ _ _ hp ↦ hp.1) hraft
  have hdisk := (Cluster.atRest_of_reach hraft a).2.onDisk
  -- what is on the disk is what the server has
  obtain ⟨-, hsaved, hdata⟩ := hdisk.resolve_left fun h0 ↦ hne (congrArg Persister.raftstate h0.1)
  obtain rfl := Option.some_inj.mp (hsaved.symm.trans hdec)
  rcases (snapshotsInv_of_reach h).right_of_sourced (hsnap.node a) with
    ⟨h0, -⟩ | ⟨ops, hlog, hlen, henc⟩
  · exact absurd h0 hpos.ne'
  refine ⟨ops, hlen, fun i hi c ↦ ?_, image ops, ?_, rfl, rfl⟩
  · -- the committed commands are unique
    change i < (σ.raft.node a).rf.snapIndex at hi
    have hget : ops[i]? = some (ops.get ⟨i, by omega⟩) := List.getElem?_eq_getElem _
    obtain ⟨T, hT⟩ := hlog i _ hget
    rw [hget]
    constructor
    · rintro ⟨T', hT'⟩
      rw [Cluster.committedAt_iff hg hsnap] at hT hT'
      exact congrArg Entry.command (hT'.unique hg.inv hT)
    · rintro rfl
      exact ⟨T, hT⟩
  · rw [hdata, henc, Labgob.decode_encode]

end System

end

/-! ## Two runs -/

namespace System

/-- Clerk `7` sets key `x` to `1`. -/
def putX : Op := ⟨.put, [120], [1], 7, 1⟩

/-- Clerk `8` sets key `y` to `2`. -/
def putY : Op := ⟨.put, [121], [2], 8, 1⟩

/-- `guardApply` goes once around its loop with the next message of the batch. -/
def around (a : Fin 3) : List (Act 3) :=
  [.receive a, .work a .process, .work a .notify, .check a]

/-- Server `0` of three is elected, commits the first command with server `1`, applies it, and takes
a snapshot. -/
def firstSnapshot : List (Act 3) :=
  [.raft (.tick 0), .raft (.askVote 0 1), .raft (.deliver 0), .raft (.answer 0), .handle 0 putX,
    .start 0 0, .raft (.replicate 0), .raft (.deliver 1), .raft (.answer 1), .raft (.wake 0),
    .raft (.collect 0)] ++ around 0 ++ [.snapshot 0 0]

theorem snapshots_never_wrong_firstSnapshot :
    ∃ σ : System 3, (machine 3 0).Reach
        (fun σ act σ' ↦ σ'.raft.MajorityBacked ∧ σ.TakesOldest act) σ ∧
      ∃ saved : Saved 3 Op,
        Labgob.decode (σ.raft.node 0).rf.persister.raftstate = some saved ∧ saved.snapIndex = 1 ∧
        ∃ ops : List Op, ops.length = 1 ∧
          ∃ im : Image, Labgob.decode (σ.raft.node 0).rf.persister.snapshot = some im ∧
            im.kvMap = (replay ops).kvMap ∧ im.lastSeq = (replay ops).lastSeq := by
  obtain ⟨σ, hσ, hne, hone⟩ := Machine.exists_reach_of_exec (M := machine 3 0)
    (P := fun σ act σ' ↦ σ'.raft.MajorityBacked ∧ σ.TakesOldest act)
    (Q := fun σ : System 3 ↦ (σ.raft.node 0).rf.persister.raftstate ≠ [] ∧
      (Labgob.decode (σ.raft.node 0).rf.persister.raftstate : Option (Saved 3 Op)).map
        Saved.snapIndex = some 1)
    firstSnapshot (by decide +kernel)
  obtain ⟨saved, hdec, hsnap⟩ := Option.map_eq_some_iff.mp hone
  obtain ⟨ops, hlen, -, him⟩ := snapshots_never_wrong hσ 0 hne hdec (by omega)
  exact ⟨σ, hσ, saved, hdec, hsnap, ops, by omega, him⟩

/-- The leader sends its snapshot to server `2` and then, with a second command, the commit index.
Server `2` applies the second command while the message with the snapshot is still on its way, and
takes a snapshot itself. -/
def skipped : List (Act 3) :=
  firstSnapshot ++ [.raft (.replicate 1), .raft (.deliver 2), .raft (.answer 2), .handle 0 putY,
    .start 0 1, .raft (.replicate 1), .raft (.deliver 3), .raft (.answer 3), .raft (.replicate 1),
    .raft (.deliver 4), .raft (.wake 2), .raft (.collect 2)] ++ around 2 ++ [.snapshot 2 0]

/-- **A wrong snapshot**: server `2` has saved, for the first two indexes, a state that lacks the
first of the two committed commands. -/
theorem snapshot_without_first_command :
    ∃ σ : System 3, (machine 3 0).Reach (fun _ _ σ' ↦ σ'.raft.MajorityBacked) σ ∧
      (∃ T, CommittedAt σ.raft.hist 1 ⟨T, some putX⟩) ∧
      (∃ T, CommittedAt σ.raft.hist 2 ⟨T, some putY⟩) ∧
      (σ.raft.node 2).rf.persister.raftstate ≠ [] ∧
      ∃ saved : Saved 3 Op,
        Labgob.decode (σ.raft.node 2).rf.persister.raftstate = some saved ∧ saved.snapIndex = 2 ∧
        ∃ im : Image, Labgob.decode (σ.raft.node 2).rf.persister.snapshot = some im ∧
          im.kvMap.lookup putX.key = none ∧ im.kvMap ≠ (replay [putX, putY]).kvMap := by
  obtain ⟨σ, hσ, ⟨rf, hrf, hlt, hle, hx⟩, ⟨rf', hrf', hlt', hle', hy⟩, hne, htwo, him⟩ :=
    Machine.exists_reach_of_exec (M := machine 3 0) (P := fun _ _ σ' ↦ σ'.raft.MajorityBacked)
      (Q := fun σ : System 3 ↦
        (∃ rf ∈ Cluster.commitments (0 : Fin 3) σ.raft.hist, rf.snapIndex < 1 ∧
          1 ≤ rf.commitIndex ∧ rf.get 1 = some ⟨1, some putX⟩) ∧
        (∃ rf ∈ Cluster.commitments (0 : Fin 3) σ.raft.hist, rf.snapIndex < 2 ∧
          2 ≤ rf.commitIndex ∧ rf.get 2 = some ⟨1, some putY⟩) ∧
        (σ.raft.node 2).rf.persister.raftstate ≠ [] ∧
        (Labgob.decode (σ.raft.node 2).rf.persister.raftstate : Option (Saved 3 Op)).map
          Saved.snapIndex = some 2 ∧
        (Labgob.decode (σ.raft.node 2).rf.persister.snapshot : Option Image).map
          (fun im ↦ im.kvMap.lookup putX.key) = some none)
      skipped (by decide +kernel)
  obtain ⟨saved, hdec, hsnap⟩ := Option.map_eq_some_iff.mp htwo
  obtain ⟨im, hdec', hmap⟩ := Option.map_eq_some_iff.mp him
  refine ⟨σ, hσ, ⟨1, 0, rf, Cluster.mem_commitments.mp hrf, by omega, hle, Or.inl ⟨hlt, hx⟩⟩,
    ⟨1, 0, rf', Cluster.mem_commitments.mp hrf', by omega, hle', Or.inl ⟨hlt', hy⟩⟩, hne,
    saved, hdec,
    hsnap, im, hdec', hmap, fun heq ↦ ?_⟩
  have hput : (replay [putX, putY]).kvMap.lookup putX.key = some putX.value := by decide +kernel
  rw [heq, hput] at hmap
  simp at hmap

end System

end DistLabs.KV
