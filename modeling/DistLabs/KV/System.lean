import DistLabs.KV.Server
import DistLabs.Raft.Safety

/-!
# Key-value servers on top of Raft

The whole system: a `Cluster` of Raft servers and on each of them a `KVServer`.  What the cluster
leaves to its service is tied up here.

* A handler calls `Start` with its operation and learns whether the server leads.
* The reader of `applyCh` is `guardApply`: a message is received when the loop is back at its top.
* `Snapshot` is called by the goroutines the size check starts, each at a moment of its own.
* A restart loses the handlers, the loop and the pending calls of `Snapshot`, and `StartKVServer`
  reads the snapshot that Raft has saved.

Requests are arbitrary operations that arrive at arbitrary times.  The Raft half of a run of the
system is a run of the cluster (`reach_raft`), so all that is known of the cluster holds here.
-/

set_option autoImplicit false

namespace DistLabs.KV

/-- A server of each kind at every place. -/
structure System (n : Nat) where
  /-- The Raft servers and the network. -/
  raft : Cluster n Op
  /-- The key-value servers. -/
  server : Fin n → KVServer

/-- What can happen. -/
inductive Act (n : Nat)
  /-- Raft and its network do something by themselves. -/
  | raft (act : Action n Op)
  /-- A request arrives. -/
  | handle (a : Fin n) (op : Op)
  /-- A handler calls `Start`. -/
  | start (a : Fin n) (h : Nat)
  /-- A key-value server does something by itself. -/
  | work (a : Fin n) (task : KVServer.Task)
  /-- `guardApply` receives the next message of `guardKick`'s batch. -/
  | receive (a : Fin n)
  /-- `guardApply` receives the message of one of the snapshot goroutines. -/
  | receiveSnap (a : Fin n) (k : Nat)
  /-- `guardApply` checks the size of the saved state. -/
  | check (a : Fin n)
  /-- One of the calls of `Snapshot` is made. -/
  | snapshot (a : Fin n) (k : Nat)
  /-- A server crashes and restarts. -/
  | restart (a : Fin n)

/-- The actions of the cluster in which its service has no part. -/
def internal {n : Nat} : Action n Op → Bool
  | .start _ _ | .snapshot _ _ _ | .send _ | .sendSnap _ _ | .restart _ => false
  | .tick _ | .askVote _ _ | .replicate _ | .deliver _ | .answer _ | .lose _ | .wake _
  | .collect _ => true

namespace System

variable {n : Nat}

/-- Replace one key-value server. -/
def setServer (σ : System n) (a : Fin n) (kv : KVServer) : System n :=
  { σ with server := Function.update σ.server a kv }

variable [Labgob (Saved n Op)] [Labgob Image]

/-- The start of every run. -/
def init : System n := ⟨.init, fun _ ↦ .startKVServer []⟩

/-- One action. -/
def step (maxraftstate : Int) (σ : System n) : Act n → Option (System n)
  | .raft act =>
    if internal act then do
      let raft ← σ.raft.step act
      return { σ with raft := raft }
    else none
  | .handle a op => some (σ.setServer a ((σ.server a).handle op))
  | .start a h => do
    let hd ← (σ.server a).handlers[h]?
    let kv ← (σ.server a).started h ((σ.raft.node a).rf.start (some hd.op)).2.isSome
    let raft ← σ.raft.step (.start a (some hd.op))
    return { σ.setServer a kv with raft := raft }
  | .work a task => do
    let kv ← (σ.server a).work task
    return σ.setServer a kv
  | .receive a => do
    let msg ← (σ.raft.node a).batch.head?
    let kv ← (σ.server a).receive msg
    let raft ← σ.raft.step (.send a)
    return { σ.setServer a kv with raft := raft }
  | .receiveSnap a k => do
    let msg ← (σ.raft.node a).snapSends[k]?
    let kv ← (σ.server a).receive msg
    let raft ← σ.raft.step (.sendSnap a k)
    return { σ.setServer a kv with raft := raft }
  | .check a => do
    let kv ← (σ.server a).check maxraftstate (σ.raft.node a).rf.persister.raftstate.length
    return σ.setServer a kv
  | .snapshot a k => do
    let (index, data) ← (σ.server a).snapshots[k]?
    let raft ← σ.raft.step (.snapshot a index data)
    return { σ.setServer a { σ.server a with snapshots := (σ.server a).snapshots.eraseIdx k } with
      raft := raft }
  | .restart a => do
    let raft ← σ.raft.step (.restart a)
    return { σ.setServer a (.startKVServer (σ.raft.node a).rf.persister.snapshot) with
      raft := raft }

/-- The system as a machine. -/
def machine (n : Nat) (maxraftstate : Int) [Labgob (Saved n Op)] : Machine (System n) (Act n) :=
  ⟨init, step maxraftstate⟩

/-! ## Outcomes -/

/-- What an action does to the servers of both kinds; `b` is the place where it happens, and the
servers elsewhere stay as they are. -/
inductive Step (maxraftstate : Int) (σ σ' : System n) : Act n → Prop
  | raft {act : Action n Op} (hint : internal act = true) (hr : σ.raft.step act = some σ'.raft)
      (hkv : σ'.server = σ.server) : Step maxraftstate σ σ' (.raft act)
  | handle {b : Fin n} {op : Op} (hr : σ'.raft = σ.raft)
      (hkv : σ'.server = Function.update σ.server b ((σ.server b).handle op)) :
      Step maxraftstate σ σ' (.handle b op)
  | start {b : Fin n} {h : Nat} {hd : Handler} {isLeader : Bool} {kv : KVServer}
      (hh : (σ.server b).handlers[h]? = some hd)
      (hs : (σ.server b).started h isLeader = some kv)
      (hr : σ.raft.step (.start b (some hd.op)) = some σ'.raft)
      (hkv : σ'.server = Function.update σ.server b kv) : Step maxraftstate σ σ' (.start b h)
  | work {b : Fin n} {task : KVServer.Task} {kv : KVServer} (hw : (σ.server b).Works task kv)
      (hr : σ'.raft = σ.raft) (hkv : σ'.server = Function.update σ.server b kv) :
      Step maxraftstate σ σ' (.work b task)
  | receive {b : Fin n} {msg : ApplyMsg Op} {kv : KVServer}
      (hm : (σ.raft.node b).batch.head? = some msg) (hk : (σ.server b).receive msg = some kv)
      (hr : σ.raft.step (.send b) = some σ'.raft)
      (hkv : σ'.server = Function.update σ.server b kv) : Step maxraftstate σ σ' (.receive b)
  | receiveSnap {b : Fin n} {k : Nat} {msg : ApplyMsg Op} {kv : KVServer}
      (hm : (σ.raft.node b).snapSends[k]? = some msg) (hk : (σ.server b).receive msg = some kv)
      (hr : σ.raft.step (.sendSnap b k) = some σ'.raft)
      (hkv : σ'.server = Function.update σ.server b kv) :
      Step maxraftstate σ σ' (.receiveSnap b k)
  | check {b : Fin n} {size : Nat} {kv : KVServer}
      (hc : (σ.server b).check maxraftstate size = some kv) (hr : σ'.raft = σ.raft)
      (hkv : σ'.server = Function.update σ.server b kv) : Step maxraftstate σ σ' (.check b)
  | snapshot {b : Fin n} {k index : Nat} {data : Bytes}
      (hp : (σ.server b).snapshots[k]? = some (index, data))
      (hr : σ.raft.step (.snapshot b index data) = some σ'.raft)
      (hkv : σ'.server = Function.update σ.server b
        { σ.server b with snapshots := (σ.server b).snapshots.eraseIdx k }) :
      Step maxraftstate σ σ' (.snapshot b k)
  | restart {b : Fin n} (hr : σ.raft.step (.restart b) = some σ'.raft)
      (hkv : σ'.server = Function.update σ.server b
        (.startKVServer (σ.raft.node b).rf.persister.snapshot)) :
      Step maxraftstate σ σ' (.restart b)

variable {maxraftstate : Int} {σ σ' : System n} {act : Act n}

theorem Step.of_step (h : σ.step maxraftstate act = some σ') : Step maxraftstate σ σ' act := by
  cases act with
  | raft act =>
    rw [System.step] at h
    split at h
    · next hint =>
      obtain ⟨raft, hr, h⟩ := Option.bind_eq_some_iff.mp h
      obtain rfl := Option.some_inj.mp h
      exact .raft hint hr rfl
    · simp at h
  | handle a op =>
    obtain rfl := Option.some_inj.mp h
    exact .handle rfl rfl
  | start a k =>
    obtain ⟨hd, hh, h⟩ := Option.bind_eq_some_iff.mp h
    obtain ⟨kv, hs, h⟩ := Option.bind_eq_some_iff.mp h
    obtain ⟨raft, hr, h⟩ := Option.bind_eq_some_iff.mp h
    obtain rfl := Option.some_inj.mp h
    exact .start hh hs hr rfl
  | work a task =>
    obtain ⟨kv, hw, h⟩ := Option.bind_eq_some_iff.mp h
    obtain rfl := Option.some_inj.mp h
    exact .work (.of_work hw) rfl rfl
  | receive a =>
    obtain ⟨msg, hm, h⟩ := Option.bind_eq_some_iff.mp h
    obtain ⟨kv, hk, h⟩ := Option.bind_eq_some_iff.mp h
    obtain ⟨raft, hr, h⟩ := Option.bind_eq_some_iff.mp h
    obtain rfl := Option.some_inj.mp h
    exact .receive hm hk hr rfl
  | receiveSnap a k =>
    obtain ⟨msg, hm, h⟩ := Option.bind_eq_some_iff.mp h
    obtain ⟨kv, hk, h⟩ := Option.bind_eq_some_iff.mp h
    obtain ⟨raft, hr, h⟩ := Option.bind_eq_some_iff.mp h
    obtain rfl := Option.some_inj.mp h
    exact .receiveSnap hm hk hr rfl
  | check a =>
    obtain ⟨kv, hc, h⟩ := Option.bind_eq_some_iff.mp h
    obtain rfl := Option.some_inj.mp h
    exact .check hc rfl rfl
  | snapshot a k =>
    obtain ⟨⟨index, data⟩, hp, h⟩ := Option.bind_eq_some_iff.mp h
    obtain ⟨raft, hr, h⟩ := Option.bind_eq_some_iff.mp h
    obtain rfl := Option.some_inj.mp h
    exact .snapshot hp hr rfl
  | restart a =>
    obtain ⟨raft, hr, h⟩ := Option.bind_eq_some_iff.mp h
    obtain rfl := Option.some_inj.mp h
    exact .restart hr rfl

/-! ## The cluster below -/

omit [Labgob (Saved n Op)] [Labgob Image] in
/-- If the action is a receive from `applyCh`, it takes the oldest message on offer. -/
def TakesOldest (σ : System n) : Act n → Prop
  | .receive a => σ.raft.TakesOldest (.send a)
  | .receiveSnap a k => σ.raft.TakesOldest (.sendSnap a k)
  | _ => True

instance (σ : System n) : (act : Act n) → Decidable (σ.TakesOldest act)
  | .receive a => inferInstanceAs (Decidable (σ.raft.TakesOldest (.send a)))
  | .receiveSnap a k => inferInstanceAs (Decidable (σ.raft.TakesOldest (.sendSnap a k)))
  | .raft _ | .handle _ _ | .start _ _ | .work _ _ | .check _ | .snapshot _ _ | .restart _ =>
    isTrue trivial

omit [Labgob (Saved n Op)] [Labgob Image] in
theorem takesOldest_internal {σ : Cluster n Op} {act : Action n Op} (h : internal act = true) :
    σ.TakesOldest act := by
  cases act <;> trivial

/-- An action of the system leaves the cluster alone or is an action of it. -/
theorem Step.raft_cases (h : Step maxraftstate σ σ' act) :
    σ'.raft = σ.raft ∨
    ∃ act', σ.raft.step act' = some σ'.raft ∧ (σ.TakesOldest act → σ.raft.TakesOldest act') := by
  cases h with
  | handle hr | work _ hr | check _ hr => exact Or.inl hr
  | raft hint hr => exact Or.inr ⟨_, hr, fun _ ↦ takesOldest_internal hint⟩
  | start _ _ hr | snapshot _ hr | restart hr => exact Or.inr ⟨_, hr, fun _ ↦ trivial⟩
  | receive _ _ hr | receiveSnap _ _ hr => exact Or.inr ⟨_, hr, id⟩

/-- **The Raft half of a run is a run of the cluster.** -/
theorem reach_raft
    (h : (machine n maxraftstate).Reach
      (fun σ act σ' ↦ σ'.raft.MajorityBacked ∧ σ.TakesOldest act) σ) :
    (Cluster.machine n Op).Reach (fun σ act σ' ↦ σ'.MajorityBacked ∧ σ.TakesOldest act) σ.raft := by
  refine h.project (f := System.raft) rfl fun σ act σ' hs ⟨hm, ho⟩ ↦ ?_
  rcases (Step.of_step hs).raft_cases with hsame | ⟨act', hr, hold⟩
  · exact Or.inl hsame
  · exact Or.inr ⟨act', hr, hm, hold ho⟩

end System

end DistLabs.KV
