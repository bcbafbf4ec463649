import DistLabs.Lib.Lists
import DistLabs.Raft.Spec

/-!
# What one action does to the cluster

`Cluster.step` is a function with many early exits.  `Trans` lists its outcomes, one constructor
for each, with the facts that led there and the state it ends in; `Trans.of_step` is the only
proof that opens `step`.  Every invariant is then a case analysis over `Trans`, and many of them
need only one of the two coarser views that follow it:

* `Trans.call_cases`: a call of the new state was there before, or is a new request, or has just
  been given its reply;
* `Trans.hist_cases`: an event of the new record was there before, or happens in this very action.
-/

set_option autoImplicit false

namespace DistLabs

namespace Cluster

variable {n : Nat} {Cmd : Type}

/-! ## Replacing a node -/

@[simp] theorem setNode_self (σ : Cluster n Cmd) (a : Fin n) (nd : Node n Cmd) :
    (σ.setNode a nd).node a = nd := Function.update_self ..

@[simp] theorem setRf_self (σ : Cluster n Cmd) (a : Fin n) (rf : Raft n Cmd) :
    (σ.setRf a rf).node a = { σ.node a with rf := rf } := Function.update_self ..

theorem setNode_of_ne (σ : Cluster n Cmd) {a b : Fin n} (nd : Node n Cmd) (h : b ≠ a) :
    (σ.setNode a nd).node b = σ.node b := Function.update_of_ne h ..

/-- What holds of every node still does when one of them is replaced by another for which it
holds. -/
theorem forall_setNode {P : Fin n → Node n Cmd → Prop} {σ : Cluster n Cmd} {a : Fin n}
    {nd : Node n Cmd} (ha : P a nd) (h : ∀ b, P b (σ.node b)) (b : Fin n) :
    P b ((σ.setNode a nd).node b) := by
  by_cases hb : b = a
  · subst hb; rwa [setNode_self]
  · rw [setNode_of_ne σ nd hb]; exact h b

variable [Labgob (Saved n Cmd)]

/-! ## Outcomes -/

/-- The outcomes of an action. -/
inductive Trans (σ : Cluster n Cmd) : Action n Cmd → Cluster n Cmd → Prop
  | tick {a : Fin n} (hs : (σ.node a).rf.state ≠ .leader) :
      Trans σ (.tick a) { σ.setRf a (σ.node a).rf.becomeCandidate with
        opinions := σ.opinions ++ [⟨a, 1, peers a⟩]
        hist := σ.hist ++ [.candidate a ((σ.node a).rf.currentTerm + 1)] }
  | askVote {r : Nat} {j : Fin n} {op : Opinion n} {args : RequestVoteArgs n}
      (hop : σ.opinions[r]? = some op) (hj : j ∈ op.pending)
      (ha : (σ.node op.server).rf.requestVoteArgs = some args) :
      Trans σ (.askVote r j) { σ with
        opinions := σ.opinions.set r { op with pending := op.pending.erase j }
        calls := σ.calls ++ [⟨op.server, j, .vote r args none, true⟩] }
  | replicateIdle {k : Nat} : Trans σ (.replicate k) σ
  | replicateAppend {k : Nat} {w : Replicator n} {args : AppendEntriesArgs n Cmd}
      (hw : σ.replicators[k]? = some w)
      (ha : (σ.node w.server).rf.singleAppend w.peer = some (some (.append args))) :
      Trans σ (.replicate k) { σ with
        replicators := σ.replicators.set k { w with busy := true }
        calls := σ.calls ++ [⟨w.server, w.peer, .append k args none, true⟩] }
  | replicateInstall {k : Nat} {w : Replicator n} {args : InstallSnapshotArgs n}
      (hw : σ.replicators[k]? = some w)
      (ha : (σ.node w.server).rf.singleAppend w.peer = some (some (.install args))) :
      Trans σ (.replicate k) { σ with
        replicators := σ.replicators.set k { w with busy := true }
        calls := σ.calls ++ [⟨w.server, w.peer, .install k args none, true⟩] }
  | deliverVote {c r : Nat} {call : Call n Cmd} {args : RequestVoteArgs n} {rf : Raft n Cmd}
      {reply : RequestVoteReply} (hc : σ.calls[c]? = some call) (hr : call.rpc = .vote r args none)
      (h : (σ.node call.callee).rf.requestVote args = some (rf, reply)) :
      Trans σ (.deliver c) { σ.setRf call.callee rf with
        calls := σ.calls.set c { call with rpc := .vote r args (some reply) } }
  | deliverAppend {c k : Nat} {call : Call n Cmd} {args : AppendEntriesArgs n Cmd}
      {rf : Raft n Cmd} {reply : AppendEntriesReply} (hc : σ.calls[c]? = some call)
      (hr : call.rpc = .append k args none)
      (h : (σ.node call.callee).rf.appendEntries args = some (rf, reply)) :
      Trans σ (.deliver c) { σ.setRf call.callee rf with
        calls := σ.calls.set c { call with rpc := .append k args (some reply) } }
  | deliverInstall {c k : Nat} {call : Call n Cmd} {args : InstallSnapshotArgs n}
      {rf : Raft n Cmd} {reply : Int} {msg : Option (ApplyMsg Cmd)}
      (hc : σ.calls[c]? = some call) (hr : call.rpc = .install k args none)
      (h : (σ.node call.callee).rf.installSnapshot args = some (rf, reply, msg)) :
      Trans σ (.deliver c) { σ.setNode call.callee { σ.node call.callee with
          rf := rf, snapSends := (σ.node call.callee).snapSends ++ msg.toList } with
        calls := σ.calls.set c { call with rpc := .install k args (some reply) } }
  | answerVote {c r : Nat} {call : Call n Cmd} {args : RequestVoteArgs n}
      {reply : RequestVoteReply} {op : Opinion n} (hc : σ.calls[c]? = some call)
      (hw : call.waiting = true) (hr : call.rpc = .vote r args (some reply))
      (hop : σ.opinions[r]? = some op)
      (hn : ¬ (σ.node call.caller).rf.countsVote args reply) :
      Trans σ (.answer c) { σ.setRf call.caller ((σ.node call.caller).rf.seeTerm reply.term) with
        calls := σ.calls.set c { call with waiting := false }
        opinions := σ.opinions.set r op }
  | countVote {c r : Nat} {call : Call n Cmd} {args : RequestVoteArgs n}
      {reply : RequestVoteReply} {op : Opinion n} (hc : σ.calls[c]? = some call)
      (hw : call.waiting = true) (hr : call.rpc = .vote r args (some reply))
      (hop : σ.opinions[r]? = some op) (hv : (σ.node call.caller).rf.countsVote args reply)
      (hfew : ¬ op.supporter + 1 > n / 2) :
      Trans σ (.answer c) { σ.setRf call.caller ((σ.node call.caller).rf.seeTerm reply.term) with
        calls := σ.calls.set c { call with waiting := false }
        opinions := σ.opinions.set r { op with supporter := op.supporter + 1 }
        hist := σ.hist ++ [.counted r call.callee args.term] }
  | elect {c r : Nat} {call : Call n Cmd} {args : RequestVoteArgs n}
      {reply : RequestVoteReply} {op : Opinion n} (hc : σ.calls[c]? = some call)
      (hw : call.waiting = true) (hr : call.rpc = .vote r args (some reply))
      (hop : σ.opinions[r]? = some op) (hv : (σ.node call.caller).rf.countsVote args reply)
      (hmany : op.supporter + 1 > n / 2) :
      Trans σ (.answer c)
        { σ.setRf call.caller (σ.node call.caller).rf.becomeLeader with
        calls := σ.calls.set c { call with waiting := false }
        opinions := σ.opinions.set r { op with supporter := op.supporter + 1 }
        replicators := σ.replicators ++
          (peers call.caller).map fun i ↦ ⟨call.caller, i, false, true⟩
        hist := σ.hist ++ [.counted r call.callee args.term, .elected call.caller args.term] }
  | answerAppend {c k : Nat} {call : Call n Cmd} {args : AppendEntriesArgs n Cmd}
      {reply : AppendEntriesReply} {rf : Raft n Cmd} (hc : σ.calls[c]? = some call)
      (hw : call.waiting = true) (hr : call.rpc = .append k args (some reply))
      (h : (σ.node call.caller).rf.singleAppendReply call.callee args reply = some rf) :
      Trans σ (.answer c) { σ.setRf call.caller rf with
        calls := σ.calls.set c { call with waiting := false }
        replicators := idle σ.replicators k
        hist := σ.hist ++ if (σ.node call.caller).rf.commitIndex < rf.commitIndex
          then [.committed call.caller rf] else [] }
  | answerInstall {c k : Nat} {call : Call n Cmd} {args : InstallSnapshotArgs n}
      {reply : Int} {rf : Raft n Cmd} (hc : σ.calls[c]? = some call)
      (hw : call.waiting = true) (hr : call.rpc = .install k args (some reply))
      (h : (σ.node call.caller).rf.helpInstallReply call.callee args reply = some rf) :
      Trans σ (.answer c) { σ.setRf call.caller rf with
        calls := σ.calls.set c { call with waiting := false }
        replicators := idle σ.replicators k }
  | lose {c : Nat} {call : Call n Cmd} {reps : List (Replicator n)}
      (hc : σ.calls[c]? = some call) (hw : call.waiting = true)
      (hreps : reps = σ.replicators ∨ ∃ k, reps = idle σ.replicators k) :
      Trans σ (.lose c) { σ with
        calls := σ.calls.set c { call with waiting := false }, replicators := reps }
  | start {a : Fin n} {command : Option Cmd} (hs : (σ.node a).rf.state = .leader) :
      Trans σ (.start a command)
        { σ.setRf a ((σ.node a).rf.append ⟨(σ.node a).rf.currentTerm, command⟩) with
        hist := σ.hist ++
          [.started a (σ.node a).rf.logLength (σ.node a).rf.currentTerm command] }
  | startRefused {a : Fin n} {command : Option Cmd} : Trans σ (.start a command) σ
  | snapshot {a : Fin n} {index : Nat} {data : Bytes} {e : Entry Cmd}
      (hm : ∃ m ∈ (σ.node a).received, m.index = index)
      (hlt : (σ.node a).rf.snapIndex < index) (he : (σ.node a).rf.get index = some e) :
      Trans σ (.snapshot a index data) { σ.setRf a (Raft.persist { (σ.node a).rf with
          log := ⟨e.term, none⟩ :: (σ.node a).rf.log.drop (index - (σ.node a).rf.snapIndex + 1)
          snapIndex := index
          snapshot := data }) with
        hist := σ.hist ++ [.cut a index data (σ.node a).rf] }
  | snapshotOld {a : Fin n} {index : Nat} {data : Bytes} : Trans σ (.snapshot a index data) σ
  | wake {a : Fin n} (hw : (σ.node a).woken = false) (hb : (σ.node a).batch = []) :
      Trans σ (.wake a) (σ.setNode a { σ.node a with
        rf := { (σ.node a).rf with wakeCh := false }, woken := true })
  | collect {a : Fin n} {rf : Raft n Cmd} {batch : List (ApplyMsg Cmd)}
      (hw : (σ.node a).woken = true) (h : (σ.node a).rf.guardKick = some (rf, batch)) :
      Trans σ (.collect a)
        (σ.setNode a { σ.node a with rf := rf, woken := false, batch := batch })
  | send {a : Fin n} {m : ApplyMsg Cmd} {rest : List (ApplyMsg Cmd)}
      (hb : (σ.node a).batch = m :: rest) :
      Trans σ (.send a) { σ.setNode a { σ.node a with
          batch := rest, received := (σ.node a).received ++ [m] } with
        hist := σ.hist ++ [.received a m] }
  | sendSnap {a : Fin n} {k : Nat} {m : ApplyMsg Cmd} (hm : (σ.node a).snapSends[k]? = some m) :
      Trans σ (.sendSnap a k) { σ.setNode a { σ.node a with
          snapSends := (σ.node a).snapSends.eraseIdx k
          received := (σ.node a).received ++ [m] } with
        hist := σ.hist ++ [.received a m] }
  | restart {a : Fin n} {rf : Raft n Cmd} (h : Raft.make a (σ.node a).rf.persister = some rf) :
      Trans σ (.restart a) { σ.setNode a ⟨rf, false, [], [], [], rf.snapIndex⟩ with
        calls := σ.calls.map fun call ↦
          if call.caller = a then { call with waiting := false } else call
        opinions := σ.opinions.map fun op ↦
          if op.server = a then { op with pending := [] } else op
        replicators := σ.replicators.map fun w ↦
          if w.server = a then { w with alive := false } else w
        hist := σ.hist ++ [.restarted a] }

namespace Trans

variable {σ σ' : Cluster n Cmd}

theorem of_replicate {k : Nat} (h : σ.replicate k = some σ') : Trans σ (.replicate k) σ' := by
  obtain ⟨w, hw, h⟩ := Option.bind_eq_some_iff.mp h
  split at h
  swap
  · simp at h
  obtain ⟨out, hout, h⟩ := Option.bind_eq_some_iff.mp h
  match out with
  | none =>
    obtain rfl := Option.some_inj.mp h
    exact replicateIdle
  | some (.append args) =>
    obtain rfl := Option.some_inj.mp h
    exact replicateAppend hw hout
  | some (.install args) =>
    obtain rfl := Option.some_inj.mp h
    exact replicateInstall hw hout

theorem of_lose {c : Nat} (h : σ.lose c = some σ') : Trans σ (.lose c) σ' := by
  obtain ⟨call, hc, h⟩ := Option.bind_eq_some_iff.mp h
  split at h
  swap
  · simp at h
  next hw =>
  dsimp only at h
  split at h
  · obtain rfl := Option.some_inj.mp h
    exact lose hc hw (Or.inl rfl)
  · next k _ _ _ =>
    obtain rfl := Option.some_inj.mp h
    exact lose hc hw (Or.inr ⟨k, rfl⟩)
  · next k _ _ _ =>
    obtain rfl := Option.some_inj.mp h
    exact lose hc hw (Or.inr ⟨k, rfl⟩)

theorem of_deliver {c : Nat} (h : σ.deliver c = some σ') : Trans σ (.deliver c) σ' := by
  obtain ⟨call, hc, h⟩ := Option.bind_eq_some_iff.mp h
  dsimp only at h
  split at h
  · next r args hr =>
    obtain ⟨⟨rf, reply⟩, hrf, h⟩ := Option.bind_eq_some_iff.mp h
    obtain rfl := Option.some_inj.mp h
    exact deliverVote hc hr hrf
  · next k args hr =>
    obtain ⟨⟨rf, reply⟩, hrf, h⟩ := Option.bind_eq_some_iff.mp h
    obtain rfl := Option.some_inj.mp h
    exact deliverAppend hc hr hrf
  · next k args hr =>
    obtain ⟨⟨rf, reply, msg⟩, hrf, h⟩ := Option.bind_eq_some_iff.mp h
    obtain rfl := Option.some_inj.mp h
    exact deliverInstall hc hr hrf
  · simp at h

theorem of_answerVote {c r : Nat} {call : Call n Cmd} {args : RequestVoteArgs n}
    {reply : RequestVoteReply} (hc : σ.calls[c]? = some call) (hw : call.waiting = true)
    (hr : call.rpc = .vote r args (some reply)) (h : σ.answerVote c call r args reply = some σ') :
    Trans σ (.answer c) σ' := by
  obtain ⟨op, hop, h⟩ := Option.bind_eq_some_iff.mp h
  by_cases hv : (σ.node call.caller).rf.countsVote args reply
  swap
  · simp only [Raft.opinionReply, hv, false_and, if_false, List.append_nil] at h
    obtain rfl := Option.some_inj.mp h
    exact answerVote hc hw hr hop hv
  by_cases hmany : op.supporter + 1 > n / 2
  · -- the term recorded for the winner is the one its voters voted in
    obtain ⟨-, -, hterm, hsee⟩ := Raft.countsVote_spec hv
    replace hterm : (σ.node call.caller).rf.becomeLeader.currentTerm = args.term := hterm
    simp only [Raft.opinionReply, hv, hmany, true_and, if_true, hsee, hterm, List.append_assoc,
      List.singleton_append] at h
    obtain rfl := Option.some_inj.mp h
    exact elect hc hw hr hop hv hmany
  · simp only [Raft.opinionReply, hv, hmany, and_false, if_true, if_false, List.append_nil] at h
    obtain rfl := Option.some_inj.mp h
    exact countVote hc hw hr hop hv hmany

theorem of_answer {c : Nat} (h : σ.answer c = some σ') : Trans σ (.answer c) σ' := by
  obtain ⟨call, hc, h⟩ := Option.bind_eq_some_iff.mp h
  split at h
  swap
  · simp at h
  next hw =>
  split at h
  · next r args reply hr => exact of_answerVote hc hw hr h
  · next k args reply hr =>
    obtain ⟨rf, hrf, h⟩ := Option.bind_eq_some_iff.mp h
    obtain rfl := Option.some_inj.mp h
    exact answerAppend hc hw hr hrf
  · next k args reply hr =>
    obtain ⟨rf, hrf, h⟩ := Option.bind_eq_some_iff.mp h
    obtain rfl := Option.some_inj.mp h
    exact answerInstall hc hw hr hrf
  · simp at h

theorem of_start {a : Fin n} {command : Option Cmd} (h : σ.start a command = some σ') :
    Trans σ (.start a command) σ' := by
  rw [Cluster.start] at h
  by_cases hs : (σ.node a).rf.state = .leader
  · rw [Raft.start_of_leader hs] at h
    obtain rfl := Option.some_inj.mp h
    exact start hs
  · rw [Raft.start_of_not_leader hs] at h
    obtain rfl := Option.some_inj.mp h
    simpa [setRf, setNode] using startRefused

theorem of_snapshot {a : Fin n} {index : Nat} {data : Bytes}
    (h : σ.snapshot a index data = some σ') : Trans σ (.snapshot a index data) σ' := by
  rw [Cluster.snapshot] at h
  dsimp only at h
  split at h
  swap
  · simp at h
  next hm =>
  obtain ⟨rf, hrf, h⟩ := Option.bind_eq_some_iff.mp h
  obtain rfl := Option.some_inj.mp h
  rcases Raft.snapshotAt_spec hrf with ⟨hle, rfl⟩ | ⟨hlt, e, he, rfl⟩
  · simpa [Nat.not_lt.mpr hle, setRf, setNode] using snapshotOld
  · simpa [hlt] using snapshot hm hlt he

/-- **The outcomes are all there is.** -/
theorem of_step {act : Action n Cmd} (h : σ.step act = some σ') : Trans σ act σ' := by
  cases act with
  | tick a =>
    change σ.tick a = some σ' at h
    rw [Cluster.tick] at h
    dsimp only at h
    split at h
    · simp at h
    · next hs =>
      obtain rfl := Option.some_inj.mp h
      exact tick hs
  | askVote r j =>
    obtain ⟨op, hop, h⟩ := Option.bind_eq_some_iff.mp h
    split at h
    · next hj =>
      obtain ⟨args, ha, h⟩ := Option.bind_eq_some_iff.mp h
      obtain rfl := Option.some_inj.mp h
      exact askVote hop hj ha
    · simp at h
  | replicate k => exact of_replicate h
  | deliver c => exact of_deliver h
  | answer c => exact of_answer h
  | lose c => exact of_lose h
  | start a command => exact of_start h
  | snapshot a index data => exact of_snapshot h
  | wake a =>
    change σ.wake a = some σ' at h
    rw [Cluster.wake] at h
    dsimp only at h
    split at h
    · next hw =>
      obtain rfl := Option.some_inj.mp h
      exact wake hw.2.1 hw.2.2
    · simp at h
  | collect a =>
    change σ.collect a = some σ' at h
    rw [Cluster.collect] at h
    dsimp only at h
    split at h
    · next hw =>
      obtain ⟨⟨rf, batch⟩, hk, h⟩ := Option.bind_eq_some_iff.mp h
      obtain rfl := Option.some_inj.mp h
      exact collect hw hk
    · simp at h
  | send a =>
    change σ.send a = some σ' at h
    rw [Cluster.send] at h
    dsimp only at h
    split at h
    · simp at h
    · next m rest hb =>
      obtain rfl := Option.some_inj.mp h
      exact send hb
  | sendSnap a k =>
    obtain ⟨m, hm, h⟩ := Option.bind_eq_some_iff.mp h
    obtain rfl := Option.some_inj.mp h
    exact sendSnap hm
  | restart a =>
    obtain ⟨rf, hrf, h⟩ := Option.bind_eq_some_iff.mp h
    obtain rfl := Option.some_inj.mp h
    exact restart hrf

end Trans

/-! ## Calls -/

/-- A call that is made on the way from `σ` to `σ'`. -/
inductive Requests (σ σ' : Cluster n Cmd) : Call n Cmd → Prop
  | vote {r : Nat} {j : Fin n} {op : Opinion n} {args : RequestVoteArgs n}
      (hop : σ.opinions[r]? = some op) (hj : j ∈ op.pending)
      (hop' : σ'.opinions[r]? = some { op with pending := op.pending.erase j })
      (ha : (σ.node op.server).rf.requestVoteArgs = some args) :
      Requests σ σ' ⟨op.server, j, .vote r args none, true⟩
  | append {k : Nat} {w : Replicator n} {args : AppendEntriesArgs n Cmd}
      (hw : σ.replicators[k]? = some w)
      (ha : (σ.node w.server).rf.singleAppend w.peer = some (some (.append args))) :
      Requests σ σ' ⟨w.server, w.peer, .append k args none, true⟩
  | install {k : Nat} {w : Replicator n} {args : InstallSnapshotArgs n}
      (hw : σ.replicators[k]? = some w)
      (ha : (σ.node w.server).rf.singleAppend w.peer = some (some (.install args))) :
      Requests σ σ' ⟨w.server, w.peer, .install k args none, true⟩

/-- The reply a handler gives to `call` on the way from `σ` to `σ'`. -/
inductive Replies (σ σ' : Cluster n Cmd) (call : Call n Cmd) : Rpc n Cmd → Prop
  | vote {r : Nat} {args : RequestVoteArgs n} {reply : RequestVoteReply}
      (hr : call.rpc = .vote r args none)
      (h : (σ.node call.callee).rf.requestVote args = some ((σ'.node call.callee).rf, reply)) :
      Replies σ σ' call (.vote r args (some reply))
  | append {k : Nat} {args : AppendEntriesArgs n Cmd} {reply : AppendEntriesReply}
      (hr : call.rpc = .append k args none)
      (h : (σ.node call.callee).rf.appendEntries args = some ((σ'.node call.callee).rf, reply)) :
      Replies σ σ' call (.append k args (some reply))
  | install {k : Nat} {args : InstallSnapshotArgs n} {reply : Int} {msg : Option (ApplyMsg Cmd)}
      (hr : call.rpc = .install k args none)
      (h : (σ.node call.callee).rf.installSnapshot args =
        some ((σ'.node call.callee).rf, reply, msg)) :
      Replies σ σ' call (.install k args (some reply))

/-- `call'` is `call`, except that its caller may have stopped waiting. -/
structure Call.Keeps (call call' : Call n Cmd) : Prop where
  /-- Same caller. -/
  caller : call'.caller = call.caller
  /-- Same callee. -/
  callee : call'.callee = call.callee
  /-- Same request and reply. -/
  rpc : call'.rpc = call.rpc
  /-- Nobody starts to wait. -/
  waiting : call'.waiting = true → call.waiting = true

namespace Trans

variable {σ σ' : Cluster n Cmd} {act : Action n Cmd}

/-- **Where a call comes from.** -/
theorem call_cases (h : Trans σ act σ') {c : Nat} {call' : Call n Cmd}
    (hc' : σ'.calls[c]? = some call') :
    (∃ call, σ.calls[c]? = some call ∧ Call.Keeps call call') ∨
    (c = σ.calls.length ∧ Requests σ σ' call' ∧ σ'.node = σ.node) ∨
    ∃ call, act = .deliver c ∧ σ.calls[c]? = some call ∧ Replies σ σ' call call'.rpc ∧
      call'.caller = call.caller ∧ call'.callee = call.callee ∧ call'.waiting = call.waiting := by
  -- a call that is appended, one that is overwritten, and one that is left alone
  have hnew : ∀ {x : Call n Cmd}, Requests σ σ' x → σ'.node = σ.node →
      (σ.calls ++ [x])[c]? = some call' →
      (∃ call, σ.calls[c]? = some call ∧ Call.Keeps call call') ∨
        (c = σ.calls.length ∧ Requests σ σ' call' ∧ σ'.node = σ.node) := by
    intro x hx hnode hc
    rcases List.getElem?_concat_cases hc with hold | ⟨rfl, rfl⟩
    · exact Or.inl ⟨call', hold, rfl, rfl, rfl, id⟩
    · exact Or.inr ⟨rfl, hx, hnode⟩
  have hset : ∀ {i : Nat} {x y : Call n Cmd}, σ.calls[i]? = some x →
      (σ.calls.set i y)[c]? = some call' →
      (c = i ∧ call' = y ∧ σ.calls[c]? = some x) ∨
        ∃ call, σ.calls[c]? = some call ∧ Call.Keeps call call' := by
    intro i x y hi hc
    rcases List.getElem?_set_cases hc with ⟨rfl, hy⟩ | ⟨-, hold⟩
    · exact Or.inl ⟨rfl, hy, hi⟩
    · exact Or.inr ⟨call', hold, rfl, rfl, rfl, id⟩
  have hstop : ∀ {i : Nat} {x : Call n Cmd}, σ.calls[i]? = some x →
      (σ.calls.set i { x with waiting := false })[c]? = some call' →
      ∃ call, σ.calls[c]? = some call ∧ Call.Keeps call call' := by
    intro i x hi hc
    rcases hset hi hc with ⟨rfl, rfl, hx⟩ | hkeep
    · exact ⟨x, hx, rfl, rfl, rfl, by simp⟩
    · exact hkeep
  have hsame : σ.calls[c]? = some call' →
      ∃ call, σ.calls[c]? = some call ∧ Call.Keeps call call' :=
    fun hc ↦ ⟨call', hc, rfl, rfl, rfl, id⟩
  cases h with
  | askVote hop hj ha =>
    have hlt := (List.getElem?_eq_some_iff.mp hop).1
    exact (hnew (.vote hop hj (List.getElem?_set_self hlt) ha) rfl hc').imp id Or.inl
  | replicateAppend hw ha => exact (hnew (.append hw ha) rfl hc').imp id Or.inl
  | replicateInstall hw ha => exact (hnew (.install hw ha) rfl hc').imp id Or.inl
  | deliverVote hc hr hrf =>
    rcases hset hc hc' with ⟨rfl, rfl, hx⟩ | hkeep
    · exact Or.inr (Or.inr ⟨_, rfl, hx, .vote hr (by simpa using hrf), rfl, rfl, rfl⟩)
    · exact Or.inl hkeep
  | deliverAppend hc hr hrf =>
    rcases hset hc hc' with ⟨rfl, rfl, hx⟩ | hkeep
    · exact Or.inr (Or.inr ⟨_, rfl, hx, .append hr (by simpa using hrf), rfl, rfl, rfl⟩)
    · exact Or.inl hkeep
  | deliverInstall hc hr hrf =>
    rcases hset hc hc' with ⟨rfl, rfl, hx⟩ | hkeep
    · exact Or.inr (Or.inr ⟨_, rfl, hx, .install hr (by simpa using hrf), rfl, rfl, rfl⟩)
    · exact Or.inl hkeep
  | answerVote hc => exact Or.inl (hstop hc hc')
  | countVote hc => exact Or.inl (hstop hc hc')
  | elect hc => exact Or.inl (hstop hc hc')
  | answerAppend hc => exact Or.inl (hstop hc hc')
  | answerInstall hc => exact Or.inl (hstop hc hc')
  | lose hc => exact Or.inl (hstop hc hc')
  | tick | replicateIdle | start | startRefused | snapshot | snapshotOld | wake | collect | send
  | sendSnap => exact Or.inl (hsame hc')
  | restart =>
    rw [List.getElem?_map, Option.map_eq_some_iff] at hc'
    obtain ⟨call, hc, rfl⟩ := hc'
    refine Or.inl ⟨call, hc, ?_⟩
    split
    · exact ⟨rfl, rfl, rfl, by simp⟩
    · exact ⟨rfl, rfl, rfl, id⟩

theorem calls_length (h : Trans σ act σ') : σ.calls.length ≤ σ'.calls.length := by
  cases h <;> simp [setRf, setNode]

/-- **Calls stay**, with their caller, their callee and their reply. -/
theorem call_mono (h : Trans σ act σ') {c : Nat} {call : Call n Cmd}
    (hc : σ.calls[c]? = some call) :
    ∃ call', σ'.calls[c]? = some call' ∧ call'.caller = call.caller ∧
      call'.callee = call.callee ∧ (call'.waiting = true → call.waiting = true) ∧
      (call'.rpc = call.rpc ∨ Replies σ σ' call call'.rpc) := by
  have hlt := (List.getElem?_eq_some_iff.mp hc).1
  have hc' := List.getElem?_eq_getElem (hlt.trans_le h.calls_length)
  refine ⟨_, hc', ?_⟩
  rcases h.call_cases hc' with ⟨call₀, hc₀, hk⟩ | ⟨rfl, -⟩ | ⟨call₀, -, hc₀, hrep, h1, h2, h3⟩
  · obtain rfl := Option.some_inj.mp (hc.symm.trans hc₀)
    exact ⟨hk.caller, hk.callee, hk.waiting, Or.inl hk.rpc⟩
  · omega
  · obtain rfl := Option.some_inj.mp (hc.symm.trans hc₀)
    exact ⟨h1, h2, fun hw ↦ h3 ▸ hw, Or.inr hrep⟩

end Trans

/-! ## Events -/

/-- An event that happens on the way from `σ` to `σ'`. -/
inductive Happens (σ σ' : Cluster n Cmd) : Event n Cmd → Prop
  | candidate {a : Fin n} (hs : (σ.node a).rf.state ≠ .leader)
      (h : (σ'.node a).rf = (σ.node a).rf.becomeCandidate) :
      Happens σ σ' (.candidate a ((σ.node a).rf.currentTerm + 1))
  | counted {c r : Nat} {call : Call n Cmd} {args : RequestVoteArgs n} {reply : RequestVoteReply}
      (hc : σ.calls[c]? = some call) (hw : call.waiting = true)
      (hr : call.rpc = .vote r args (some reply))
      (hv : (σ.node call.caller).rf.countsVote args reply) :
      Happens σ σ' (.counted r call.callee args.term)
  | elected {c r : Nat} {call : Call n Cmd} {args : RequestVoteArgs n} {reply : RequestVoteReply}
      {op : Opinion n} (hc : σ.calls[c]? = some call) (hw : call.waiting = true)
      (hr : call.rpc = .vote r args (some reply)) (hop : σ.opinions[r]? = some op)
      (hv : (σ.node call.caller).rf.countsVote args reply)
      (hmany : op.supporter + 1 > n / 2)
      (hop' : σ'.opinions[r]? = some { op with supporter := op.supporter + 1 })
      (hev : .counted r call.callee args.term ∈ σ'.hist)
      (h : (σ'.node call.caller).rf = (σ.node call.caller).rf.becomeLeader) :
      Happens σ σ' (.elected call.caller args.term)
  | committed {c k : Nat} {call : Call n Cmd} {args : AppendEntriesArgs n Cmd}
      {reply : AppendEntriesReply} {rf : Raft n Cmd} (hc : σ.calls[c]? = some call)
      (hw : call.waiting = true) (hr : call.rpc = .append k args (some reply))
      (h : (σ.node call.caller).rf.singleAppendReply call.callee args reply = some rf)
      (hlt : (σ.node call.caller).rf.commitIndex < rf.commitIndex)
      (h' : (σ'.node call.caller).rf = rf) :
      Happens σ σ' (.committed call.caller rf)
  | started {a : Fin n} {command : Option Cmd} (hs : (σ.node a).rf.state = .leader)
      (h : (σ'.node a).rf = (σ.node a).rf.append ⟨(σ.node a).rf.currentTerm, command⟩) :
      Happens σ σ' (.started a (σ.node a).rf.logLength (σ.node a).rf.currentTerm command)
  | received {a : Fin n} {m : ApplyMsg Cmd}
      (hm : m ∈ (σ.node a).batch ∨ m ∈ (σ.node a).snapSends) : Happens σ σ' (.received a m)
  | cut {a : Fin n} {index : Nat} {data : Bytes} {e : Entry Cmd}
      (hm : ∃ m ∈ (σ.node a).received, m.index = index)
      (hlt : (σ.node a).rf.snapIndex < index) (he : (σ.node a).rf.get index = some e) :
      Happens σ σ' (.cut a index data (σ.node a).rf)
  | restarted {a : Fin n} : Happens σ σ' (.restarted a)

namespace Trans

variable {σ σ' : Cluster n Cmd} {act : Action n Cmd}

/-- **Where an event comes from.**  The record is extended at its end, by events that happen in
this action; a `Start` is the only event of its action. -/
theorem hist_cases (h : Trans σ act σ') :
    ∃ evs, σ'.hist = σ.hist ++ evs ∧ (∀ e ∈ evs, Happens σ σ' e) ∧
      ∀ a i T c, .started a i T c ∈ evs → evs = [.started a i T c] := by
  have hnil : σ'.hist = σ.hist → ∃ evs, σ'.hist = σ.hist ++ evs ∧ (∀ e ∈ evs, Happens σ σ' e) ∧
      ∀ a i T c, .started a i T c ∈ evs → evs = [.started a i T c] :=
    fun heq ↦ ⟨[], by simp [heq], by simp, by simp⟩
  have hone : ∀ {x : Event n Cmd}, σ'.hist = σ.hist ++ [x] → Happens σ σ' x →
      ∃ evs, σ'.hist = σ.hist ++ evs ∧ (∀ e ∈ evs, Happens σ σ' e) ∧
        ∀ a i T c, .started a i T c ∈ evs → evs = [.started a i T c] := by
    intro x heq hx
    refine ⟨[x], heq, fun e he ↦ ?_, fun a i T c he ↦ ?_⟩
    · rwa [List.mem_singleton.mp he]
    · rw [List.mem_singleton.mp he]
  cases h with
  | tick hs => exact hone rfl (.candidate hs (by simp))
  | askVote | replicateIdle | replicateAppend | replicateInstall | deliverVote | deliverAppend
  | deliverInstall | answerVote | answerInstall | lose | startRefused | snapshotOld | wake
  | collect => exact hnil rfl
  | countVote hc hw hr hop hv => exact hone rfl (.counted hc hw hr hv)
  | elect hc hw hr hop hv hmany =>
    refine ⟨_, rfl, fun e he ↦ ?_, by simp⟩
    rcases List.mem_pair.mp he with rfl | rfl
    · exact .counted hc hw hr hv
    · have hlt := (List.getElem?_eq_some_iff.mp hop).1
      refine .elected hc hw hr hop hv hmany (List.getElem?_set_self hlt) (by simp) ?_
      simp
  | @answerAppend c k call args reply rf hc hw hr hrf =>
    by_cases hlt : (σ.node call.caller).rf.commitIndex < rf.commitIndex
    · exact hone (by simp [hlt]) (.committed hc hw hr hrf hlt (by simp))
    · exact hnil (by simp [hlt])
  | start hs => exact hone rfl (.started hs (by simp))
  | snapshot hm hlt he => exact hone rfl (.cut hm hlt he)
  | send hb => exact hone rfl (.received (Or.inl (by simp [hb])))
  | sendSnap hm => exact hone rfl (.received (Or.inr (List.mem_of_getElem? hm)))
  | restart => exact hone rfl .restarted

theorem mem_hist (h : Trans σ act σ') {e : Event n Cmd} (he : e ∈ σ'.hist) :
    e ∈ σ.hist ∨ Happens σ σ' e := by
  obtain ⟨evs, hevs, hall, -⟩ := h.hist_cases
  rw [hevs] at he
  exact (List.mem_append.mp he).imp id (hall e)

theorem hist_subset (h : Trans σ act σ') {e : Event n Cmd} (he : e ∈ σ.hist) : e ∈ σ'.hist := by
  obtain ⟨evs, hevs, -⟩ := h.hist_cases
  rw [hevs]
  exact List.mem_append_left _ he

/-- The record of a `Snapshot` that took effect is made by that very call. -/
theorem cut_cases (h : Trans σ act σ') {b : Fin n} {s : Nat} {data : Bytes} {rf : Raft n Cmd}
    (he : .cut b s data rf ∈ σ'.hist) : .cut b s data rf ∈ σ.hist ∨ act = .snapshot b s data := by
  cases h with
  | @snapshot a index data' =>
    rcases List.mem_append.mp he with hold | hnew
    · exact Or.inl hold
    · obtain ⟨rfl, rfl, rfl, -⟩ := Event.cut.injEq .. ▸ List.mem_singleton.mp hnew
      exact Or.inr rfl
  | askVote | replicateIdle | replicateAppend | replicateInstall | deliverVote | deliverAppend
  | deliverInstall | answerVote | answerInstall | lose | startRefused | snapshotOld | wake
  | collect => exact Or.inl he
  | answerAppend =>
    rcases List.mem_append.mp he with hold | hnew
    · exact Or.inl hold
    · split at hnew <;> simp at hnew
  | tick | countVote | elect | start | send | sendSnap | restart =>
    exact Or.inl (by simpa using he)

/-! ## The service -/

/-- Other actions than a receive or a restart the service of a server does not see. -/
theorem service_same (h : Trans σ act σ') {a : Fin n} (hsend : act ≠ .send a)
    (hsnap : ∀ k, act ≠ .sendSnap a k) (hre : act ≠ .restart a) :
    (σ'.node a).received = (σ.node a).received ∧
      (σ'.node a).startIndex = (σ.node a).startIndex := by
  have hone : ∀ {b : Fin n} {nd : Node n Cmd}, nd.received = (σ.node b).received ∧
      nd.startIndex = (σ.node b).startIndex →
      ((σ.setNode b nd).node a).received = (σ.node a).received ∧
      ((σ.setNode b nd).node a).startIndex = (σ.node a).startIndex := fun hb ↦
    forall_setNode (P := fun x nd ↦ nd.received = (σ.node x).received ∧
      nd.startIndex = (σ.node x).startIndex) hb (fun _ ↦ ⟨rfl, rfl⟩) a
  have hne : ∀ {b : Fin n} {nd : Node n Cmd}, a ≠ b →
      ((σ.setNode b nd).node a).received = (σ.node a).received ∧
      ((σ.setNode b nd).node a).startIndex = (σ.node a).startIndex := by
    intro b nd hab
    rw [setNode_of_ne σ nd hab]
    exact ⟨rfl, rfl⟩
  cases h with
  | askVote | replicateIdle | replicateAppend | replicateInstall | lose | startRefused
  | snapshotOld => exact ⟨rfl, rfl⟩
  | tick | deliverVote | deliverAppend | deliverInstall | answerVote | countVote | elect
  | answerAppend | answerInstall | start | snapshot | wake | collect => exact hone ⟨rfl, rfl⟩
  | send => exact hne fun hab ↦ hsend (hab ▸ rfl)
  | @sendSnap b k => exact hne fun hab ↦ hsnap k (hab ▸ rfl)
  | restart => exact hne fun hab ↦ hre (hab ▸ rfl)

theorem service_send {a : Fin n} {m : ApplyMsg Cmd} (h : Trans σ (.send a) σ')
    (hm : (σ.node a).batch.head? = some m) :
    (σ'.node a).received = (σ.node a).received ++ [m] ∧
      (σ'.node a).startIndex = (σ.node a).startIndex := by
  cases h with
  | send hb =>
    rw [hb, List.head?_cons, Option.some_inj] at hm
    simp [hm]

theorem service_sendSnap {a : Fin n} {k : Nat} {m : ApplyMsg Cmd} (h : Trans σ (.sendSnap a k) σ')
    (hm : (σ.node a).snapSends[k]? = some m) :
    (σ'.node a).received = (σ.node a).received ++ [m] ∧
      (σ'.node a).startIndex = (σ.node a).startIndex := by
  cases h with
  | sendSnap hm' =>
    obtain rfl := Option.some_inj.mp (hm'.symm.trans hm)
    simp

theorem service_restart {a : Fin n} (h : Trans σ (.restart a) σ') :
    (σ'.node a).received = [] ∧ (σ'.node a).startIndex = (σ'.node a).rf.snapIndex := by
  cases h
  simp

end Trans

end Cluster

end DistLabs
