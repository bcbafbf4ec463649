import DistLabs.Raft.Delivery
import DistLabs.Raft.Provenance

/-!
# Index, term and bytes of a snapshot stay together

A snapshot is three values: the last index it covers, the term at that index (element `0` of the
log) and the bytes.  `Snapshot` and `InstallSnapshot` replace all three, every other section saves
them along with whatever else it saves, and a request and a restart carry them on.

Nothing here depends on who is elected or on what the service asks for, so the cluster is taken with
a service that may call `Snapshot` with any index at all, from as many goroutines as it likes: an
index that is out of date does nothing, and one beyond the log is a panic.
-/

set_option autoImplicit false

namespace DistLabs

variable {n : Nat} {Cmd : Type}

namespace Cluster

variable [Labgob (Saved n Cmd)]

/-! ## A service that snapshots as it likes -/

/-- `Snapshot`, called with any index. -/
def snapshotAny (σ : Cluster n Cmd) (a : Fin n) (index : Nat) (data : Bytes) :
    Option (Cluster n Cmd) := do
  let rf ← (σ.node a).rf.snapshotAt index data
  return { σ.setRf a rf with
    hist := σ.hist ++ if (σ.node a).rf.snapIndex < index then [.cut a index data (σ.node a).rf]
      else [] }

/-- One action, with `Snapshot` called as the service likes. -/
def freeStep (σ : Cluster n Cmd) : Action n Cmd → Option (Cluster n Cmd)
  | .snapshot a index data => σ.snapshotAny a index data
  | act => σ.step act

/-- The cluster with such a service. -/
def freeMachine (n : Nat) (Cmd : Type) [Labgob (Saved n Cmd)] :
    Machine (Cluster n Cmd) (Action n Cmd) :=
  ⟨init, freeStep⟩

/-- A `Snapshot` at a position the log still has, after which nothing but the server's log, boundary
and snapshot is different. -/
structure Cuts (σ σ' : Cluster n Cmd) (a : Fin n) (index : Nat) (data : Bytes) (e : Entry Cmd) :
    Prop where
  /-- The index lies beyond the snapshot there was. -/
  lt : (σ.node a).rf.snapIndex < index
  /-- The log has an entry there. -/
  get : (σ.node a).rf.get index = some e
  /-- The state after it. -/
  eq : σ' = { σ.setRf a (Raft.persist { (σ.node a).rf with
      log := ⟨e.term, none⟩ :: (σ.node a).rf.log.drop (index - (σ.node a).rf.snapIndex + 1)
      snapIndex := index
      snapshot := data }) with hist := σ.hist ++ [.cut a index data (σ.node a).rf] }

variable {σ σ' : Cluster n Cmd} {act : Action n Cmd}

/-- **The outcomes are those of the cluster and the free snapshots.** -/
theorem freeStep_cases (h : σ.freeStep act = some σ') :
    Trans σ act σ' ∨ ∃ a index data e, Cuts σ σ' a index data e := by
  cases act with
  | snapshot a index data =>
    obtain ⟨rf, hrf, h⟩ := Option.bind_eq_some_iff.mp h
    obtain rfl := Option.some_inj.mp h
    rcases Raft.snapshotAt_spec hrf with ⟨hle, rfl⟩ | ⟨hlt, e, he, rfl⟩
    · refine Or.inl ?_
      simpa [Nat.not_lt.mpr hle, setRf, setNode] using Trans.snapshotOld (σ := σ)
    · exact Or.inr ⟨a, index, data, e, hlt, he, by simp [hlt]⟩
  | tick | askVote | replicate | deliver | answer | lose | start | wake | collect | send | sendSnap
  | restart => exact Or.inl (Trans.of_step h)

/-! ## What a step keeps -/

theorem Cuts.evolves {a : Fin n} {index : Nat} {data : Bytes} {e : Entry Cmd}
    (h : Cuts σ σ' a index data e) (hσ : σ.AtRest) (b : Fin n) :
    Raft.Evolves (σ.node b).rf (σ'.node b).rf := by
  obtain ⟨hlt, -, rfl⟩ := h
  refine forall_setNode (P := fun x nd ↦ Raft.Evolves (σ.node x).rf nd.rf) (a := a) ?_
    (fun x ↦ (hσ x).2.evolves) b
  exact (hσ a).2.evolves.persist (by simp) rfl rfl rfl hlt.le

theorem evolves_of_freeStep (h : σ.freeStep act = some σ') (hσ : σ.AtRest) (a : Fin n) :
    Raft.Evolves (σ.node a).rf (σ'.node a).rf := by
  rcases freeStep_cases h with ht | ⟨b, index, data, e, hcut⟩
  · exact ht.evolves hσ a
  · exact hcut.evolves hσ a

theorem atRest_of_freeReach (h : (freeMachine n Cmd).Reach (fun _ _ _ ↦ True) σ) : σ.AtRest := by
  refine h.invariant (I := AtRest) atRest_init fun σ act σ' _ hσ hs _ a ↦ ?_
  have he := evolves_of_freeStep hs hσ a
  exact ⟨he.me.trans (hσ a).1, he.atRest⟩

/-- There was a call `Snapshot(s, data)` on a server whose entry at `s` then had term `T`. -/
def CutWith (hist : List (Event n Cmd)) (s : Nat) (T : Int) (data : Bytes) : Prop :=
  ∃ b rf e, .cut b s data rf ∈ hist ∧ rf.get s = some e ∧ e.term = T

omit [Labgob (Saved n Cmd)] in
theorem CutWith.mono {hist hist' : List (Event n Cmd)} (hsub : hist ⊆ hist') {s : Nat} {T : Int}
    {data : Bytes} (h : CutWith hist s T data) : CutWith hist' s T data := by
  obtain ⟨b, rf, e, hcut, he, hT⟩ := h
  exact ⟨b, rf, e, hsub hcut, he, hT⟩

/-- The snapshot of a server, if it has one, came in one call of `Snapshot`, with its index and the
term at its boundary. -/
def Paired (hist : List (Event n Cmd)) (rf : Raft n Cmd) : Prop :=
  0 < rf.snapIndex → ∃ T, rf.getSnap = some T ∧ CutWith hist rf.snapIndex T rf.snapshot

/-- So did the snapshot in a request. -/
def RpcPaired (hist : List (Event n Cmd)) : Rpc n Cmd → Prop
  | .install _ args _ => 0 < args.lastIncludedIndex →
      CutWith hist args.lastIncludedIndex args.lastIncludedTerm args.data
  | _ => True

section Mono

variable {hist hist' : List (Event n Cmd)} (hsub : hist ⊆ hist')
include hsub

omit [Labgob (Saved n Cmd)] in
theorem Paired.mono {rf : Raft n Cmd} (h : Paired hist rf) : Paired hist' rf := by
  intro hpos
  obtain ⟨T, hT, hcut⟩ := h hpos
  exact ⟨T, hT, hcut.mono hsub⟩

omit [Labgob (Saved n Cmd)] in
theorem RpcPaired.mono {rpc : Rpc n Cmd} (h : RpcPaired hist rpc) : RpcPaired hist' rpc := by
  cases rpc with
  | vote | append => trivial
  | install k args reply => exact fun hpos ↦ CutWith.mono hsub (h hpos)

end Mono

omit [Labgob (Saved n Cmd)] in
theorem Paired.congr {hist : List (Event n Cmd)} {rf rf' : Raft n Cmd} (h : Paired hist rf)
    (hs : SameSnap rf rf') : Paired hist rf' := by
  rw [Paired, hs.index, hs.data, hs.term]
  exact h

/-- Every snapshot came in one call of `Snapshot`. -/
structure PairInv (σ : Cluster n Cmd) : Prop where
  /-- Those the servers have. -/
  node : ∀ a, Paired σ.hist (σ.node a).rf
  /-- Those on their way. -/
  request : ∀ call ∈ σ.calls, RpcPaired σ.hist call.rpc

namespace PairInv

theorem step (hi : σ.PairInv) (hσ : σ.AtRest) (h : Trans σ act σ') : σ'.PairInv := by
  have hsub : σ.hist ⊆ σ'.hist := fun _ he ↦ h.hist_subset he
  refine ⟨fun a ↦ ?_, fun call' hmem ↦ ?_⟩
  · rcases h.snap_cases hσ a with hsame | ⟨call, hmem, k, args, hr, hs, hd, hT⟩ | ⟨hcut, e, he, hT⟩
    · exact ((hi.node a).mono hsub).congr hsame
    · have hreq := (hi.request call hmem).mono hsub
      rw [hr] at hreq
      intro hpos
      rw [hs] at hpos ⊢
      rw [hd]
      exact ⟨_, hT, hreq hpos⟩
    · exact fun _ ↦ ⟨e.term, hT, a, _, e, hcut, he, rfl⟩
  · obtain ⟨c, hc'⟩ := List.mem_iff_getElem?.mp hmem
    rcases h.call_cases hc' with ⟨call, hc, hk⟩ | ⟨-, hreq, -⟩ | ⟨call, -, hc, hrep, -⟩
    · rw [hk.rpc]
      exact (hi.request call (List.mem_of_getElem? hc)).mono hsub
    · cases hreq with
      | vote | append => trivial
      | install hw ha =>
        -- the request carries the three values of its sender
        obtain ⟨-, snapTerm, hsnap, rfl⟩ := Raft.singleAppend_install ha
        intro hpos
        obtain ⟨T, hT, hcut⟩ := (hi.node _).mono hsub hpos
        obtain rfl := Option.some_inj.mp (hsnap.symm.trans hT)
        exact hcut
    · have hold := (hi.request call (List.mem_of_getElem? hc)).mono hsub
      generalize call'.rpc = rpc at hrep
      cases hrep with
      | vote | append => trivial
      | install hr =>
        rw [hr] at hold
        exact hold

theorem cut (hi : σ.PairInv) {a : Fin n} {index : Nat} {data : Bytes} {e : Entry Cmd}
    (h : Cuts σ σ' a index data e) : σ'.PairInv := by
  obtain ⟨-, hget, rfl⟩ := h
  have hsub : σ.hist ⊆ σ.hist ++ [.cut a index data (σ.node a).rf] := List.subset_append_left ..
  refine ⟨fun b ↦ ?_, fun call hmem ↦ (hi.request call hmem).mono hsub⟩
  refine forall_setNode
    (P := fun _ nd ↦ Paired (σ.hist ++ [.cut a index data (σ.node a).rf]) nd.rf) (a := a) ?_
    (fun x ↦ (hi.node x).mono hsub) b
  intro _
  exact ⟨e.term, rfl, a, _, e, List.mem_append_right _ (List.mem_singleton_self _), hget, rfl⟩

end PairInv

theorem pairInv_of_freeReach (h : (freeMachine n Cmd).Reach (fun _ _ _ ↦ True) σ) :
    σ.PairInv := by
  refine h.invariant (I := PairInv) ?_ fun σ act σ' hr hi hs _ ↦ ?_
  · constructor <;> simp [freeMachine, init, Paired, Raft.fresh]
  · rcases freeStep_cases hs with ht | ⟨a, index, data, e, hcut⟩
    · exact hi.step (atRest_of_freeReach hr) ht
    · exact hi.cut hcut

/-- What the disk of a server at rest holds is as the server has it. -/
theorem Paired.saved {hist : List (Event n Cmd)} {rf : Raft n Cmd} (h : Paired hist rf)
    (hr : rf.OnDisk) {s : Saved n Cmd} (hne : rf.persister.raftstate ≠ [])
    (hs : Labgob.decode rf.persister.raftstate = some s) (hpos : 0 < s.snapIndex) :
    ∃ T, s.log.head?.map Entry.term = some T ∧
      CutWith hist s.snapIndex T rf.persister.snapshot := by
  rcases hr with ⟨hp, -⟩ | ⟨-, hd, hsn⟩
  · exact absurd (by rw [hp]; rfl) hne
  · obtain rfl := Option.some_inj.mp (hs.symm.trans hd)
    rw [hsn]
    exact h hpos

/-- **Snapshot bytes and index stay paired.**  Whatever the service calls `Snapshot` with and
however the calls, the handlers and the crashes interleave: the snapshot that a server has, that its
disk holds or that a request carries came, if its index `s` is positive, in one call
`Snapshot(s, bytes)` on some server, and the term at the boundary is that of the entry this server
had at `s`; and from then on no server's `snapIndex` ever decreases. -/
theorem snapshot_paired (h : (freeMachine n Cmd).Reach (fun _ _ _ ↦ True) σ) :
    (∀ a, 0 < (σ.node a).rf.snapIndex → ∃ T, (σ.node a).rf.getSnap = some T ∧
      CutWith σ.hist (σ.node a).rf.snapIndex T (σ.node a).rf.snapshot) ∧
    (∀ a (s : Saved n Cmd), (σ.node a).rf.persister.raftstate ≠ [] →
      Labgob.decode (σ.node a).rf.persister.raftstate = some s → 0 < s.snapIndex →
      ∃ T, s.log.head?.map Entry.term = some T ∧
        CutWith σ.hist s.snapIndex T (σ.node a).rf.persister.snapshot) ∧
    (∀ call ∈ σ.calls, ∀ k args reply, call.rpc = .install k args reply →
      0 < args.lastIncludedIndex →
      CutWith σ.hist args.lastIncludedIndex args.lastIncludedTerm args.data) ∧
    ∀ σ', (freeMachine n Cmd).Leads σ σ' →
      ∀ a, (σ.node a).rf.snapIndex ≤ (σ'.node a).rf.snapIndex := by
  have hi := pairInv_of_freeReach h
  have hσ := atRest_of_freeReach h
  refine ⟨hi.node, fun a s ↦ (hi.node a).saved (hσ a).2.onDisk, ?_, ?_⟩
  · intro call hmem k args reply hr
    have hreq := hi.request call hmem
    rw [hr] at hreq
    exact hreq
  · intro σ' hl a
    refine hl.monotone (f := fun σ ↦ (σ.node a).rf.snapIndex) (fun σ act σ' hr hs ↦ ?_) h
    exact (evolves_of_freeStep hs (atRest_of_freeReach hr) a).snap

/-- The leader of three compacts at index `1` and sends its snapshot to server `2`, which takes it
over and restarts. -/
def sentSnapshot : List (Action 3 Nat) :=
  firstElection ++ [.start 0 (some 10), .replicate 0, .deliver 1, .answer 1, .snapshot 0 1 [7],
    .replicate 1, .deliver 2, .restart 2]

theorem snapshot_paired_sentSnapshot :
    ∃ σ : Cluster 3 Nat, (freeMachine 3 Nat).Reach (fun _ _ _ ↦ True) σ ∧
      (σ.node 2).rf.snapIndex = 1 ∧
      ∃ T, (σ.node 2).rf.getSnap = some T ∧ CutWith σ.hist 1 T (σ.node 2).rf.snapshot := by
  obtain ⟨σ, hσ, hQ⟩ := Machine.exists_reach_of_exec (M := freeMachine 3 Nat)
    (P := fun _ _ _ ↦ True) (Q := fun σ ↦ (σ.node 2).rf.snapIndex = 1) sentSnapshot
    (by decide +kernel)
  have hpair := (snapshot_paired hσ).1 2 (by rw [hQ]; decide)
  rw [hQ] at hpair
  exact ⟨σ, hσ, hQ, hpair⟩

end Cluster

end DistLabs
