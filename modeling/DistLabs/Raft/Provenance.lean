import DistLabs.Raft.Roles

/-!
# Where snapshots come from

A snapshot enters the cluster when a service hands one to `Snapshot`, which is on record as a `cut`
together with the server as it was.  From there it travels unchanged: it is saved, sent in an
`InstallSnapshot`, taken over by another server, and handed to its service.  So wherever a pair of
an index and a snapshot is found, there is a `cut` on record with this very pair (`SnapInv`).

`TakenFrom` says which entry stood at an index in the log a snapshot was taken from; if that log had
itself been cut before the index, the question passes to the snapshot it then had.  Every index a
snapshot covers has an answer (`SnapInv.covers`).
-/

set_option autoImplicit false

namespace DistLabs

variable {n : Nat} {Cmd : Type}

namespace Cluster

/-! ## Definitions -/

/-- The log from which the snapshot `data` up to index `s` was taken held `e` at index `i`. -/
inductive TakenFrom (hist : List (Event n Cmd)) : Nat → Bytes → Nat → Entry Cmd → Prop
  /-- The log that was cut still had the index. -/
  | held {b : Fin n} {s i : Nat} {data : Bytes} {rf : Raft n Cmd} {e : Entry Cmd}
      (hcut : .cut b s data rf ∈ hist) (hlt : rf.snapIndex < i) (hle : i ≤ s)
      (he : rf.get i = some e) : TakenFrom hist s data i e
  /-- The index lies in the snapshot the server had then. -/
  | older {b : Fin n} {s i : Nat} {data : Bytes} {rf : Raft n Cmd} {e : Entry Cmd}
      (hcut : .cut b s data rf ∈ hist) (h : TakenFrom hist rf.snapIndex rf.snapshot i e) :
      TakenFrom hist s data i e

/-- Some service handed over this snapshot for this index; at index `0` there is none yet. -/
def Sourced (hist : List (Event n Cmd)) (s : Nat) (data : Bytes) : Prop :=
  s = 0 ∧ data = [] ∨ ∃ b rf, .cut b s data rf ∈ hist

/-- A snapshot in a request has a source. -/
def RpcSourced (hist : List (Event n Cmd)) : Rpc n Cmd → Prop
  | .install _ args _ => Sourced hist args.lastIncludedIndex args.data
  | _ => True

/-- A snapshot in a message covers something and has a source. -/
def MsgSourced (hist : List (Event n Cmd)) : ApplyMsg Cmd → Prop
  | .snapshot i _ data => 0 < i ∧ Sourced hist i data
  | .command _ _ _ => True

/-- The snapshots on record in an event have sources. -/
def EventSourced (hist : List (Event n Cmd)) : Event n Cmd → Prop
  | .cut _ s _ rf => rf.snapIndex < s ∧ (∃ e, rf.get s = some e) ∧
      Sourced hist rf.snapIndex rf.snapshot
  | .committed _ rf => Sourced hist rf.snapIndex rf.snapshot
  | .received _ m => MsgSourced hist m
  | _ => True

section Mono

variable {hist hist' : List (Event n Cmd)} (hsub : hist ⊆ hist')
include hsub

theorem TakenFrom.mono {s i : Nat} {data : Bytes} {e : Entry Cmd} (h : TakenFrom hist s data i e) :
    TakenFrom hist' s data i e := by
  induction h with
  | held hcut hlt hle he => exact .held (hsub hcut) hlt hle he
  | older hcut _ ih => exact .older (hsub hcut) ih

theorem Sourced.mono {s : Nat} {data : Bytes} (h : Sourced hist s data) :
    Sourced hist' s data :=
  h.imp id fun ⟨b, rf, hcut⟩ ↦ ⟨b, rf, hsub hcut⟩

theorem RpcSourced.mono {rpc : Rpc n Cmd} (h : RpcSourced hist rpc) : RpcSourced hist' rpc := by
  cases rpc with
  | install => exact Sourced.mono hsub h
  | vote | append => trivial

theorem MsgSourced.mono {m : ApplyMsg Cmd} (h : MsgSourced hist m) : MsgSourced hist' m := by
  cases m with
  | snapshot => exact h.imp id (Sourced.mono hsub)
  | command => trivial

theorem EventSourced.mono {e : Event n Cmd} (h : EventSourced hist e) : EventSourced hist' e := by
  cases e with
  | cut => exact ⟨h.1, h.2.1, h.2.2.mono hsub⟩
  | committed => exact Sourced.mono hsub h
  | received => exact MsgSourced.mono hsub h
  | candidate | counted | elected | started | restarted => trivial

end Mono

/-- Every snapshot anywhere has a source. -/
structure SnapInv (σ : Cluster n Cmd) : Prop where
  /-- Those the servers have. -/
  node : ∀ a, Sourced σ.hist (σ.node a).rf.snapIndex (σ.node a).rf.snapshot
  /-- Those in the messages to the services. -/
  msg : ∀ a, ∀ m ∈ (σ.node a).received ++ ((σ.node a).batch ++ (σ.node a).snapSends),
    MsgSourced σ.hist m
  /-- Those in requests. -/
  request : ∀ call ∈ σ.calls, RpcSourced σ.hist call.rpc
  /-- Those on record. -/
  event : ∀ e ∈ σ.hist, EventSourced σ.hist e

/-! ## One action -/

variable [Labgob (Saved n Cmd)] {σ σ' : Cluster n Cmd} {act : Action n Cmd}

/-- The snapshot, its last index and the term at the boundary are what they were. -/
structure SameSnap (rf rf' : Raft n Cmd) : Prop where
  /-- The last index it covers. -/
  index : rf'.snapIndex = rf.snapIndex
  /-- The bytes. -/
  data : rf'.snapshot = rf.snapshot
  /-- The term at the boundary. -/
  term : rf'.getSnap = rf.getSnap

omit [Labgob (Saved n Cmd)] in
theorem mergedLog_head? {rf : Raft n Cmd} (h : rf.log ≠ []) (args : AppendEntriesArgs n Cmd) :
    (rf.mergedLog args).head? = rf.log.head? := by
  obtain ⟨b, rest, hlog⟩ := List.exists_cons_of_ne_nil h
  have hk : max args.prevLogIndex rf.snapIndex + 1 - rf.snapIndex =
      max args.prevLogIndex rf.snapIndex - rf.snapIndex + 1 := by omega
  rw [Raft.mergedLog, hk, hlog, List.take_succ_cons]
  simp

/-- **How a server's snapshot changes**: not at all, or it comes in a request, or the service hands
it over.  The term at the boundary comes along with it. -/
theorem Trans.snap_cases (h : Trans σ act σ') (hσ : σ.AtRest) (a : Fin n) :
    SameSnap (σ.node a).rf (σ'.node a).rf ∨
    (∃ call ∈ σ.calls, ∃ k args, call.rpc = .install k args none ∧
      (σ'.node a).rf.snapIndex = args.lastIncludedIndex ∧ (σ'.node a).rf.snapshot = args.data ∧
      (σ'.node a).rf.getSnap = some args.lastIncludedTerm) ∨
    .cut a (σ'.node a).rf.snapIndex (σ'.node a).rf.snapshot (σ.node a).rf ∈ σ'.hist ∧
      ∃ e, (σ.node a).rf.get (σ'.node a).rf.snapIndex = some e ∧
        (σ'.node a).rf.getSnap = some e.term := by
  have hsame : ∀ b, SameSnap (σ.node b).rf (σ.node b).rf := fun _ ↦ ⟨rfl, rfl, rfl⟩
  have hone : ∀ {b : Fin n} {nd : Node n Cmd}, SameSnap (σ.node b).rf nd.rf →
      SameSnap (σ.node a).rf ((σ.setNode b nd).node a).rf := fun hb ↦
    forall_setNode (P := fun x nd ↦ SameSnap (σ.node x).rf nd.rf) hb hsame a
  cases h with
  | tick | wake | send | sendSnap => exact Or.inl (hone ⟨rfl, rfl, rfl⟩)
  | @start b =>
    refine Or.inl (hone ⟨rfl, rfl, ?_⟩)
    change ((σ.node b).rf.log ++ [_]).head?.map Entry.term = (σ.node b).rf.log.head?.map Entry.term
    rw [List.head?_append_of_ne_nil _ (hσ b).2.log_ne]
  | askVote | replicateIdle | replicateAppend | replicateInstall | lose | startRefused
  | snapshotOld => exact Or.inl (hsame a)
  | deliverVote _ _ hr =>
    rcases (Raft.requestVote_spec hr).2 with ⟨-, rfl⟩ | ⟨-, -, -, -, rfl⟩ <;>
      exact Or.inl (hone ⟨by simp [Raft.persist], by simp [Raft.persist],
        by simp [Raft.persist, Raft.getSnap]⟩)
  | @deliverAppend _ _ call args _ _ _ _ hr =>
    rcases Raft.appendEntries_spec hr with ⟨rfl, -⟩ | ⟨-, -, -, -, w, rf₁, hrf₁, rfl⟩
    · exact Or.inl (hone ⟨by simp, by simp, by simp [Raft.getSnap]⟩)
    · rcases hrf₁ with ⟨rfl, -⟩ | rfl
      · exact Or.inl (hone ⟨by simp, by simp, by simp [Raft.getSnap]⟩)
      · refine Or.inl (hone ⟨by simp [Raft.persist], by simp [Raft.persist], ?_⟩)
        exact congrArg (Option.map Entry.term) (mergedLog_head? (hσ call.callee).2.log_ne args)
  | @deliverInstall c k call args rf reply msg hc hr hrf =>
    rcases (Raft.installSnapshot_spec hrf).2 with ⟨-, rfl, -⟩ | ⟨-, -, hcase⟩
    · exact Or.inl (hone ⟨by simp, by simp, by simp [Raft.getSnap]⟩)
    · have hnew : rf.snapIndex = args.lastIncludedIndex ∧ rf.snapshot = args.data ∧
          rf.getSnap = some args.lastIncludedTerm := by
        rcases hcase with ⟨-, -, rfl⟩ | ⟨-, -, rfl⟩ <;> exact ⟨rfl, rfl, rfl⟩
      by_cases ha : a = call.callee
      · subst ha
        exact Or.inr (Or.inl ⟨call, List.mem_of_getElem? hc, k, args, hr, by simpa using hnew⟩)
      · refine Or.inl ?_
        change SameSnap _ ((σ.setNode call.callee _).node a).rf
        rw [setNode_of_ne σ _ ha]
        exact hsame a
  | answerVote | countVote => exact Or.inl (hone ⟨by simp, by simp, by simp [Raft.getSnap]⟩)
  | elect => exact Or.inl (hone ⟨rfl, rfl, rfl⟩)
  | answerAppend _ _ _ hr =>
    rcases Raft.singleAppendReply_spec hr with rfl | ⟨-, -, -, -, next, v, -, -, rfl⟩ |
      ⟨-, -, -, m, next, rf₁, -, -, rfl, rfl | ⟨M, e, c, -, -, -, -, -, -, rfl⟩⟩
    · exact Or.inl (hone ⟨by simp, by simp, by simp [Raft.getSnap]⟩)
    all_goals exact Or.inl (hone ⟨rfl, rfl, rfl⟩)
  | answerInstall _ _ _ hr =>
    rcases Raft.helpInstallReply_spec hr with rfl | ⟨-, m, next, -, -, rfl⟩
    · exact Or.inl (hone ⟨by simp, by simp, by simp [Raft.getSnap]⟩)
    · exact Or.inl (hone ⟨rfl, rfl, rfl⟩)
  | @snapshot b index data e hm hlt he =>
    by_cases ha : a = b
    · subst ha
      exact Or.inr (Or.inr ⟨by simp [Raft.persist], e, by simpa [Raft.persist] using he,
        by simp [Raft.persist, Raft.getSnap]⟩)
    · refine Or.inl ?_
      change SameSnap _ ((σ.setRf b _).node a).rf
      rw [setRf, setNode_of_ne σ _ ha]
      exact hsame a
  | collect _ hk =>
    obtain ⟨rfl, -⟩ := Raft.guardKick_spec hk
    exact Or.inl (hone ⟨rfl, rfl, rfl⟩)
  | @restart b rf hmake =>
    obtain rfl := hσ.make hmake
    exact Or.inl (hone ⟨rfl, rfl, rfl⟩)

/-- A message to the service of `a` is on its way in `σ` already, or is a command, or carries the
snapshot of a request. -/
def MsgOrigin (σ : Cluster n Cmd) (a : Fin n) (m : ApplyMsg Cmd) : Prop :=
  m ∈ (σ.node a).received ++ ((σ.node a).batch ++ (σ.node a).snapSends) ∨
  (∃ i c T, m = .command i c T) ∨
  ∃ call ∈ σ.calls, ∃ k args, call.rpc = .install k args none ∧ 0 < args.lastIncludedIndex ∧
    m = .snapshot args.lastIncludedIndex args.lastIncludedTerm args.data

/-- **Where a message to a service comes from.** -/
theorem Trans.msg_origin (h : Trans σ act σ') {a : Fin n} {m : ApplyMsg Cmd}
    (hm : m ∈ (σ'.node a).received ++ ((σ'.node a).batch ++ (σ'.node a).snapSends)) :
    σ.MsgOrigin a m := by
  -- it is enough to look at the node that acts
  have hone : ∀ {b : Fin n} {nd : Node n Cmd}, σ'.node = (σ.setNode b nd).node →
      (m ∈ nd.received ++ (nd.batch ++ nd.snapSends) → σ.MsgOrigin b m) → σ.MsgOrigin a m := by
    intro b nd hn hb
    by_cases ha : a = b
    · subst ha
      rw [hn, setNode_self] at hm
      exact hb hm
    · rw [hn, setNode_of_ne σ nd ha] at hm
      exact Or.inl hm
  cases h with
  | askVote | replicateIdle | replicateAppend | replicateInstall | lose | startRefused
  | snapshotOld => exact Or.inl hm
  | tick | deliverVote | deliverAppend | answerVote | countVote | elect | answerAppend
  | answerInstall | start | snapshot | wake => exact hone rfl Or.inl
  | @deliverInstall c k call args rf reply msg hc hr hrf =>
    refine hone rfl fun hmem ↦ ?_
    rcases (Raft.installSnapshot_spec hrf).2 with ⟨rfl, -⟩ | ⟨-, hlt, ⟨-, rfl, -⟩ | ⟨-, rfl, -⟩⟩
    · exact Or.inl (by simpa using hmem)
    · exact Or.inl (by simpa using hmem)
    · by_cases hnew : m = .snapshot args.lastIncludedIndex args.lastIncludedTerm args.data
      swap
      · refine Or.inl ?_
        simp only [Option.toList_some, List.mem_append, List.mem_singleton, hnew,
          or_false] at hmem ⊢
        exact hmem
      · exact Or.inr (Or.inr
          ⟨call, List.mem_of_getElem? hc, k, args, hr, Nat.zero_lt_of_lt hlt, hnew⟩)
  | @collect b rf batch hw hk =>
    refine hone rfl fun hmem ↦ ?_
    obtain ⟨-, -, hbatch⟩ := Raft.guardKick_spec hk
    simp only [List.mem_append] at hmem
    rcases hmem with h | h | h
    · exact Or.inl (List.mem_append_left _ h)
    · obtain ⟨j, e, -, -, -, rfl⟩ := hbatch m h
      exact Or.inr (Or.inl ⟨j, _, _, rfl⟩)
    · exact Or.inl (List.mem_append_right _ (List.mem_append_right _ h))
  | send hb =>
    refine hone rfl fun hmem ↦ Or.inl ?_
    simp only [List.mem_append, hb, List.mem_cons] at hmem ⊢
    tauto
  | sendSnap hk =>
    refine hone rfl fun hmem ↦ Or.inl ?_
    have hold := List.mem_of_getElem? hk
    simp only [List.mem_append, List.mem_singleton] at hmem ⊢
    rcases hmem with (h | rfl) | h | h
    · exact Or.inl h
    · exact Or.inr (Or.inr hold)
    · exact Or.inr (Or.inl h)
    · exact Or.inr (Or.inr (List.mem_of_mem_eraseIdx h))
  | restart => exact hone rfl fun hmem ↦ by simp at hmem

namespace SnapInv

theorem step (h : Trans σ act σ') (hσ : σ.AtRest) (hi : σ.SnapInv) : σ'.SnapInv := by
  have hsub : σ.hist ⊆ σ'.hist := fun _ he ↦ h.hist_subset he
  have hcall : ∀ {call : Call n Cmd} {k : Nat} {args : InstallSnapshotArgs n}, call ∈ σ.calls →
      call.rpc = .install k args none → Sourced σ'.hist args.lastIncludedIndex args.data := by
    intro call k args hmem hr
    have hreq := hi.request call hmem
    rw [hr] at hreq
    exact Sourced.mono hsub hreq
  have hmsg : ∀ a, ∀ m ∈ (σ'.node a).received ++ ((σ'.node a).batch ++ (σ'.node a).snapSends),
      MsgSourced σ'.hist m := by
    intro a m hm
    rcases h.msg_origin hm with hold | ⟨i, c, T, rfl⟩ | ⟨call, hmem, k, args, hr, hpos, rfl⟩
    · exact (hi.msg a m hold).mono hsub
    · trivial
    · exact ⟨hpos, hcall hmem hr⟩
  have hnode : ∀ a, Sourced σ'.hist (σ'.node a).rf.snapIndex (σ'.node a).rf.snapshot := by
    intro a
    rcases h.snap_cases hσ a with hsame | ⟨call, hmem, k, args, hr, h1, h2, -⟩ | ⟨hcut, -⟩
    · rw [hsame.index, hsame.data]
      exact (hi.node a).mono hsub
    · rw [h1, h2]
      exact hcall hmem hr
    · exact Or.inr ⟨a, _, hcut⟩
  refine ⟨hnode, hmsg, fun call' hmem ↦ ?_, fun e he ↦ ?_⟩
  · obtain ⟨c, hc'⟩ := List.mem_iff_getElem?.mp hmem
    rcases h.call_cases hc' with ⟨call, hc, hk⟩ | ⟨-, hreq, -⟩ | ⟨call, -, hc, hrep, -⟩
    · rw [hk.rpc]
      exact (hi.request call (List.mem_of_getElem? hc)).mono hsub
    · cases hreq with
      | vote | append => trivial
      | install hw ha =>
        obtain ⟨-, snapTerm, -, rfl⟩ := Raft.singleAppend_install ha
        exact (hi.node _).mono hsub
    · have hold := hi.request call (List.mem_of_getElem? hc)
      generalize call'.rpc = rpc at hrep
      cases hrep with
      | vote | append => trivial
      | install hr => rw [hr] at hold; exact Sourced.mono hsub hold
  · rcases h.mem_hist he with hold | hnew
    · exact (hi.event e hold).mono hsub
    · cases hnew with
      | cut hm hlt he' => exact ⟨hlt, ⟨_, he'⟩, (hi.node _).mono hsub⟩
      | committed hc hw hr hrf hlt h' => exact h' ▸ hnode _
      | received hm =>
        exact (hi.msg _ _ (List.mem_append_right _ (List.mem_append.mpr hm))).mono hsub
      | candidate | counted | elected | started | restarted => trivial

omit [Labgob (Saved n Cmd)] in
/-- **A snapshot covers its indexes**: each of them was in the log it was taken from. -/
theorem covers (hi : σ.SnapInv) {s : Nat} {data : Bytes} (hs : Sourced σ.hist s data) {i : Nat}
    (h0 : 0 < i) (hle : i ≤ s) : ∃ e, TakenFrom σ.hist s data i e := by
  induction s using Nat.strong_induction_on generalizing data with
  | _ s ih =>
    rcases hs with ⟨rfl, -⟩ | ⟨b, rf, hcut⟩
    · omega
    · obtain ⟨hlt, ⟨last, hlast⟩, hold⟩ := hi.event _ hcut
      rcases Nat.lt_or_ge rf.snapIndex i with hi' | hi'
      · have hlen := (List.getElem?_eq_some_iff.mp (Raft.get_eq_some.mp hlast).2).1
        exact ⟨_, .held hcut hi' hle (Raft.get_eq_some.mpr
          ⟨hi'.le, List.getElem?_eq_getElem (by omega)⟩)⟩
      · obtain ⟨e, he⟩ := ih rf.snapIndex hlt hold hi'
        exact ⟨e, .older hcut he⟩

end SnapInv

theorem snapInv_of_reach {P : Cluster n Cmd → Action n Cmd → Cluster n Cmd → Prop}
    {σ : Cluster n Cmd} (h : (machine n Cmd).Reach P σ) : σ.SnapInv := by
  refine h.invariant (I := SnapInv) ?_ fun σ act σ' hr hi hs _ ↦
    hi.step (Trans.of_step hs) (atRest_of_reach hr)
  constructor <;> simp [machine, init, Sourced, Raft.fresh]

end Cluster

end DistLabs
