import DistLabs.KV.Server
import DistLabs.Lib.Linearizable
import DistLabs.Lib.Machine

/-!
# Clerks, key-value servers, and what they expect of Raft

`client.go`, the servers of `DistLabs.KV.Server`, and between them Raft as its contract describes
it.

* **Raft.**  `log` is the sequence of committed commands, which grows at its end.  Each server is
  handed the log in the order of its indexes: the next command, or the snapshot some service has
  taken of a longer prefix; `cursor` is the index it has been handed last.  `Start` may say yes or
  no.  If it says yes, the operation enters `pool`, together with the last index that was applied on
  any server by then, and may one day be committed, beyond that index.  Which snapshot Raft keeps on
  a server's `disk` is up to it, too: one the server has taken, or one that another has.
* **Clerks.**  There is a clerk for every client identifier.  It makes one call at a time: it sends
  the request to some server, waits, and tries again, on this or any other server, until an answer
  is a result.  (The code tries the servers in turn.)
* **The network.**  A request may be delivered late or never, its answer too, and a clerk may give
  up waiting at any time.
* **Crashes.**  `restart` loses all of a server but its disk.

`hist` is the history of the calls of all clerks.  Each event carries the last index that was
applied anywhere by then.
-/

set_option autoImplicit false

namespace DistLabs.KV

/-! ## Calls -/

/-- `Get`, `Put` and `Append` of a `Clerk`. -/
inductive Call
  | get (key : Bytes)
  | put (key value : Bytes)
  | append (key value : Bytes)
deriving DecidableEq, Repr

/-- The operation that the handler of a request makes of it. -/
def Call.op (clientId seqNum : Int) : Call → Op
  | .get key => ⟨.get, key, [], clientId, seqNum⟩
  | .put key value => ⟨.put, key, value, clientId, seqNum⟩
  | .append key value => ⟨.append, key, value, clientId, seqNum⟩

/-- The call that an operation comes from. -/
def Op.call (op : Op) : Call :=
  match op.type with
  | .get => .get op.key
  | .put => .put op.key op.value
  | .append => .append op.key op.value

/-- What a clerk returns when it gets this answer; `none` makes it try again. -/
def Call.result : Call → Reply → Option Bytes
  | .get _, .ok v => some v
  | .get _, .noKey => some []
  | .put _ _, .ok _ => some []
  | .append _ _, .ok _ => some []
  | _, _ => none

/-- A map from strings to strings in which missing keys read as the empty string. -/
def kvObject : SeqObject (Bytes → Bytes) Call Bytes where
  init := fun _ ↦ []
  next s
    | .get _ => s
    | .put key value => Function.update s key value
    | .append key value => Function.update s key (s key ++ value)
  result s
    | .get key => s key
    | .put _ _ => []
    | .append _ _ => []

/-! ## The parts of the system -/

/-- `Clerk`, with its place in `Get` or `PutAppend`. -/
structure Clerk where
  /-- The number of the next request. -/
  seqNum : Int
  /-- The call it is in. -/
  call : Option Call
  /-- The request it waits for. -/
  waiting : Option Nat

/-- `MakeClerk`. -/
def Clerk.make : Clerk := ⟨1, none, none⟩

/-- How far a request has come. -/
inductive Progress
  /-- It is on its way. -/
  | sent
  /-- A handler was called. -/
  | running (h : Nat)
  /-- The answer is on its way. -/
  | answered (reply : Reply)
  /-- The server crashed before there was an answer. -/
  | lost
deriving DecidableEq, Repr

/-- A `Call` of `KVServer.Get` or `KVServer.PutAppend` on an endpoint. -/
structure Request (n : Nat) where
  /-- The server it goes to. -/
  server : Fin n
  /-- What it asks for. -/
  op : Op
  /-- How far it has come. -/
  progress : Progress

/-- A server, with what Raft keeps for it. -/
structure Replica where
  /-- The server. -/
  kv : KVServer
  /-- The index of the last message Raft has handed it. -/
  cursor : Nat
  /-- The snapshot on its disk, and the last index it covers. -/
  disk : Nat × Bytes

/-- What has happened for good. -/
structure Past where
  /-- The committed commands. -/
  log : List Op
  /-- The last index that was ever applied on a server. -/
  applied : Nat
  /-- The history. -/
  hist : List (Nat × CallEvent (Int × Int) Call Bytes)

/-- Everything. -/
structure Service (n : Nat) extends Past where
  /-- What `Start` has accepted, with `applied` at that time. -/
  pool : List (Op × Nat)
  /-- The snapshots Raft was handed. -/
  taken : List (Nat × Bytes)
  /-- The servers. -/
  replica : Fin n → Replica
  /-- The clerks. -/
  clerk : Int → Clerk
  /-- Every request ever made. -/
  requests : List (Request n)

/-- The calls, without the stamps. -/
def Past.calls (p : Past) : List (CallEvent (Int × Int) Call Bytes) := p.hist.map Prod.snd

/-- What can happen. -/
inductive Move (n : Nat)
  /-- A clerk is called. -/
  | invoke (c : Int) (call : Call)
  /-- A clerk sends its request to a server. -/
  | send (c : Int) (a : Fin n)
  /-- A clerk's RPC fails. -/
  | lose (c : Int)
  /-- The answer to the request a clerk waits for reaches it. -/
  | reply (c : Int)
  /-- A request reaches its server. -/
  | deliver (r : Nat)
  /-- A handler has returned, and the server sends its answer. -/
  | answer (r : Nat)
  /-- A handler calls `Start`. -/
  | start (a : Fin n) (h : Nat) (isLeader : Bool)
  /-- A server does something by itself. -/
  | work (a : Fin n) (task : KVServer.Task)
  /-- `guardApply` receives the next command. -/
  | receive (a : Fin n)
  /-- `guardApply` receives a snapshot. -/
  | receiveSnap (a : Fin n) (j : Nat)
  /-- `guardApply` checks the size of the saved state. -/
  | check (a : Fin n) (size : Nat)
  /-- A call of `Snapshot` is made. -/
  | snapshot (a : Fin n) (j : Nat)
  /-- Raft saves a snapshot it was sent. -/
  | install (a : Fin n) (j : Nat)
  /-- An entry is committed. -/
  | commit (j : Nat)
  /-- A server crashes and restarts. -/
  | restart (a : Fin n)

namespace Service

variable {n : Nat}

/-- Replace one replica. -/
def setReplica (σ : Service n) (a : Fin n) (rp : Replica) : Service n :=
  { σ with replica := Function.update σ.replica a rp }

/-- Replace the server of one replica. -/
def setKV (σ : Service n) (a : Fin n) (kv : KVServer) : Service n :=
  σ.setReplica a { σ.replica a with kv := kv }

/-- Replace one clerk. -/
def setClerk (σ : Service n) (c : Int) (ck : Clerk) : Service n :=
  { σ with clerk := Function.update σ.clerk c ck }

variable [Labgob Image]

/-- The start of every run. -/
def init : Service n where
  log := []
  applied := 0
  hist := []
  pool := []
  taken := []
  replica _ := ⟨.startKVServer [], 0, (0, [])⟩
  clerk _ := .make
  requests := []

/-- A clerk is called. -/
def invoke (σ : Service n) (c : Int) (call : Call) : Option (Service n) :=
  let ck := σ.clerk c
  if ck.call = none then some { σ.setClerk c { ck with call := some call } with
    hist := σ.hist ++ [(σ.applied, .invoke (c, ck.seqNum) call)] }
  else none

/-- The top of the loop in `Get` and `PutAppend`. -/
def send (σ : Service n) (c : Int) (a : Fin n) : Option (Service n) := do
  let ck := σ.clerk c
  let call ← ck.call
  if ck.waiting = none then
    return { σ.setClerk c { ck with waiting := some σ.requests.length } with
      requests := σ.requests ++ [⟨a, call.op c ck.seqNum, .sent⟩] }
  else none

/-- `Call` returns `false`. -/
def lose (σ : Service n) (c : Int) : Option (Service n) :=
  let ck := σ.clerk c
  if ck.waiting = none then none else some (σ.setClerk c { ck with waiting := none })

/-- `Call` returns `true`; the rest of the loop. -/
def reply (σ : Service n) (c : Int) : Option (Service n) := do
  let ck := σ.clerk c
  let call ← ck.call
  let r ← ck.waiting
  let rq ← σ.requests[r]?
  match rq.progress with
  | .answered reply =>
    match call.result reply with
    | none => return σ.setClerk c { ck with waiting := none }
    | some v => return { σ.setClerk c ⟨ck.seqNum + 1, none, none⟩ with
        hist := σ.hist ++ [(σ.applied, .respond (c, ck.seqNum) v)] }
  | _ => none

/-- A handler is called. -/
def deliver (σ : Service n) (r : Nat) : Option (Service n) := do
  let rq ← σ.requests[r]?
  let kv := (σ.replica rq.server).kv
  if rq.progress = .sent then
    return { σ.setKV rq.server (kv.handle rq.op) with
      requests := σ.requests.set r { rq with progress := .running kv.handlers.length } }
  else none

/-- The answer leaves the server. -/
def answer (σ : Service n) (r : Nat) : Option (Service n) := do
  let rq ← σ.requests[r]?
  match rq.progress with
  | .running h =>
    let hd ← (σ.replica rq.server).kv.handlers[h]?
    match hd.stage with
    | .returned reply =>
      return { σ with requests := σ.requests.set r { rq with progress := .answered reply } }
    | _ => none
  | _ => none

/-- A handler calls `Start`. -/
def start (σ : Service n) (a : Fin n) (h : Nat) (isLeader : Bool) : Option (Service n) := do
  let hd ← (σ.replica a).kv.handlers[h]?
  let kv ← (σ.replica a).kv.started h isLeader
  return { σ.setKV a kv with
    pool := if isLeader then σ.pool ++ [(hd.op, σ.applied)] else σ.pool }

/-- A server does something by itself. -/
def work (σ : Service n) (a : Fin n) (task : KVServer.Task) : Option (Service n) := do
  let kv ← (σ.replica a).kv.work task
  return { σ.setKV a kv with applied := max σ.applied kv.lastApplied }

/-- The next command is handed to a server. -/
def receive (σ : Service n) (a : Fin n) : Option (Service n) := do
  let rp := σ.replica a
  let op ← σ.log[rp.cursor]?
  let kv ← rp.kv.receive (.command (rp.cursor + 1) (some op) 0)
  return σ.setReplica a { rp with kv := kv, cursor := rp.cursor + 1 }

/-- A snapshot is handed to a server. -/
def receiveSnap (σ : Service n) (a : Fin n) (j : Nat) : Option (Service n) := do
  let rp := σ.replica a
  let (index, data) ← σ.taken[j]?
  if rp.cursor < index then
    let kv ← rp.kv.receive (.snapshot index 0 data)
    return σ.setReplica a { rp with kv := kv, cursor := index }
  else none

/-- A server hands over a snapshot; Raft ignores it if it has a newer one. -/
def snapshot (σ : Service n) (a : Fin n) (j : Nat) : Option (Service n) := do
  let rp := σ.replica a
  let (index, data) ← rp.kv.snapshots[j]?
  let kv := { rp.kv with snapshots := rp.kv.snapshots.eraseIdx j }
  if rp.disk.1 < index then
    return { σ.setReplica a { rp with kv := kv, disk := (index, data) } with
      taken := σ.taken ++ [(index, data)] }
  else return σ.setKV a kv

/-- Raft saves a snapshot that was taken on another server. -/
def install (σ : Service n) (a : Fin n) (j : Nat) : Option (Service n) := do
  let rp := σ.replica a
  let (index, data) ← σ.taken[j]?
  if rp.disk.1 < index then return σ.setReplica a { rp with disk := (index, data) } else none

/-- An entry is committed, at an index beyond those that had been applied when it was started. -/
def commit (σ : Service n) (j : Nat) : Option (Service n) := do
  let (op, floor) ← σ.pool[j]?
  if floor < σ.log.length + 1 then
    return { σ with log := σ.log ++ [op], pool := σ.pool.eraseIdx j }
  else none

/-- A server crashes and starts again from its disk. -/
def restart (σ : Service n) (a : Fin n) : Service n :=
  let disk := (σ.replica a).disk
  { σ.setReplica a ⟨.startKVServer disk.2, disk.1, disk⟩ with
    requests := σ.requests.map fun rq ↦ match rq.progress with
      | .running _ => if rq.server = a then { rq with progress := .lost } else rq
      | _ => rq }

/-- One move. -/
def step (maxraftstate : Int) (σ : Service n) : Move n → Option (Service n)
  | .invoke c call => σ.invoke c call
  | .send c a => σ.send c a
  | .lose c => σ.lose c
  | .reply c => σ.reply c
  | .deliver r => σ.deliver r
  | .answer r => σ.answer r
  | .start a h isLeader => σ.start a h isLeader
  | .work a task => σ.work a task
  | .receive a => σ.receive a
  | .receiveSnap a j => σ.receiveSnap a j
  | .check a size => do
    let kv ← (σ.replica a).kv.check maxraftstate size
    return σ.setKV a kv
  | .snapshot a j => σ.snapshot a j
  | .install a j => σ.install a j
  | .commit j => σ.commit j
  | .restart a => some (σ.restart a)

/-- The service as a machine. -/
def machine (n : Nat) (maxraftstate : Int) : Machine (Service n) (Move n) :=
  ⟨init, step maxraftstate⟩

/-! ## Outcomes -/

/-- The outcomes of a move. -/
inductive Step (maxraftstate : Int) (σ : Service n) : Move n → Service n → Prop
  | invoke {c : Int} {call : Call} (hc : (σ.clerk c).call = none) :
      Step maxraftstate σ (.invoke c call)
        { σ.setClerk c { σ.clerk c with call := some call } with
          hist := σ.hist ++ [(σ.applied, .invoke (c, (σ.clerk c).seqNum) call)] }
  | send {c : Int} {a : Fin n} {call : Call} (hc : (σ.clerk c).call = some call) :
      Step maxraftstate σ (.send c a)
        { σ.setClerk c { σ.clerk c with waiting := some σ.requests.length } with
          requests := σ.requests ++ [⟨a, call.op c (σ.clerk c).seqNum, .sent⟩] }
  | giveUp {c : Int} {move : Move n} :
      Step maxraftstate σ move (σ.setClerk c { σ.clerk c with waiting := none })
  | reply {c : Int} {call : Call} {r : Nat} {rq : Request n} {reply : Reply} {v : Bytes}
      (hc : (σ.clerk c).call = some call) (hw : (σ.clerk c).waiting = some r)
      (hr : σ.requests[r]? = some rq) (hp : rq.progress = .answered reply)
      (hv : call.result reply = some v) :
      Step maxraftstate σ (.reply c)
        { σ.setClerk c ⟨(σ.clerk c).seqNum + 1, none, none⟩ with
          hist := σ.hist ++ [(σ.applied, .respond (c, (σ.clerk c).seqNum) v)] }
  | deliver {r : Nat} {rq : Request n} (hr : σ.requests[r]? = some rq) :
      Step maxraftstate σ (.deliver r)
        { σ.setKV rq.server ((σ.replica rq.server).kv.handle rq.op) with
          requests := σ.requests.set r
            { rq with progress := .running (σ.replica rq.server).kv.handlers.length } }
  | answer {r h : Nat} {rq : Request n} {hd : Handler} {reply : Reply}
      (hr : σ.requests[r]? = some rq) (hp : rq.progress = .running h)
      (hh : (σ.replica rq.server).kv.handlers[h]? = some hd) (hs : hd.stage = .returned reply) :
      Step maxraftstate σ (.answer r)
        { σ with requests := σ.requests.set r { rq with progress := .answered reply } }
  | start {a : Fin n} {h : Nat} {isLeader : Bool} {hd : Handler}
      (hh : (σ.replica a).kv.handlers[h]? = some hd) :
      Step maxraftstate σ (.start a h isLeader)
        { σ.setKV a ((σ.replica a).kv.setStage h
            (if isLeader then .waiting else .returning .wrongLeader)) with
          pool := if isLeader then σ.pool ++ [(hd.op, σ.applied)] else σ.pool }
  | work {a : Fin n} {task : KVServer.Task} {kv : KVServer}
      (hw : (σ.replica a).kv.Works task kv) :
      Step maxraftstate σ (.work a task)
        { σ.setKV a kv with applied := max σ.applied kv.lastApplied }
  | receive {a : Fin n} {op : Op} (hop : σ.log[(σ.replica a).cursor]? = some op)
      (hg : (σ.replica a).kv.guard = .receiving) :
      Step maxraftstate σ (.receive a)
        (σ.setReplica a { σ.replica a with
          kv := { (σ.replica a).kv with
            guard := .holding (.command ((σ.replica a).cursor + 1) (some op) 0) }
          cursor := (σ.replica a).cursor + 1 })
  | receiveSnap {a : Fin n} {j index : Nat} {data : Bytes}
      (hj : σ.taken[j]? = some (index, data)) (hlt : (σ.replica a).cursor < index)
      (hg : (σ.replica a).kv.guard = .receiving) :
      Step maxraftstate σ (.receiveSnap a j)
        (σ.setReplica a { σ.replica a with
          kv := { (σ.replica a).kv with guard := .holding (.snapshot index 0 data) }
          cursor := index })
  | check {a : Fin n} {size : Nat} {kv : KVServer}
      (hc : (σ.replica a).kv.check maxraftstate size = some kv) :
      Step maxraftstate σ (.check a size) (σ.setKV a kv)
  | snapshot {a : Fin n} {j index : Nat} {data : Bytes}
      (hj : (σ.replica a).kv.snapshots[j]? = some (index, data)) :
      Step maxraftstate σ (.snapshot a j)
        { σ.setReplica a { σ.replica a with
            kv := { (σ.replica a).kv with snapshots := (σ.replica a).kv.snapshots.eraseIdx j }
            disk := (index, data) } with
          taken := σ.taken ++ [(index, data)] }
  | snapshotOld {a : Fin n} {j : Nat} :
      Step maxraftstate σ (.snapshot a j) (σ.setKV a
        { (σ.replica a).kv with snapshots := (σ.replica a).kv.snapshots.eraseIdx j })
  | install {a : Fin n} {j index : Nat} {data : Bytes} (hj : σ.taken[j]? = some (index, data)) :
      Step maxraftstate σ (.install a j)
        (σ.setReplica a { σ.replica a with disk := (index, data) })
  | commit {j floor : Nat} {op : Op} (hj : σ.pool[j]? = some (op, floor)) :
      Step maxraftstate σ (.commit j)
        { σ with log := σ.log ++ [op], pool := σ.pool.eraseIdx j }
  | restart {a : Fin n} : Step maxraftstate σ (.restart a) (σ.restart a)

variable {maxraftstate : Int} {σ σ' : Service n} {move : Move n}

theorem Step.of_step (h : σ.step maxraftstate move = some σ') : Step maxraftstate σ move σ' := by
  cases move with
  | invoke c call =>
    change σ.invoke c call = some σ' at h
    rw [Service.invoke] at h
    dsimp only at h
    split at h
    · next hc =>
      obtain rfl := Option.some_inj.mp h
      exact .invoke hc
    · simp at h
  | send c a =>
    obtain ⟨call, hc, h⟩ := Option.bind_eq_some_iff.mp h
    split at h
    · obtain rfl := Option.some_inj.mp h
      exact .send hc
    · simp at h
  | lose c =>
    change σ.lose c = some σ' at h
    rw [Service.lose] at h
    split at h
    · simp at h
    · obtain rfl := Option.some_inj.mp h
      exact .giveUp
  | reply c =>
    obtain ⟨call, hc, h⟩ := Option.bind_eq_some_iff.mp h
    obtain ⟨r, hw, h⟩ := Option.bind_eq_some_iff.mp h
    obtain ⟨rq, hr, h⟩ := Option.bind_eq_some_iff.mp h
    split at h
    · next reply hp =>
      split at h
      · obtain rfl := Option.some_inj.mp h
        exact .giveUp
      · next v hv =>
        obtain rfl := Option.some_inj.mp h
        exact .reply hc hw hr hp hv
    · simp at h
  | deliver r =>
    obtain ⟨rq, hr, h⟩ := Option.bind_eq_some_iff.mp h
    split at h
    · obtain rfl := Option.some_inj.mp h
      exact .deliver hr
    · simp at h
  | answer r =>
    obtain ⟨rq, hr, h⟩ := Option.bind_eq_some_iff.mp h
    split at h
    · next k hp =>
      obtain ⟨hd, hh, h⟩ := Option.bind_eq_some_iff.mp h
      split at h
      · next reply hs =>
        obtain rfl := Option.some_inj.mp h
        exact .answer hr hp hh hs
      · simp at h
    · simp at h
  | start a k isLeader =>
    obtain ⟨hd, hh, h⟩ := Option.bind_eq_some_iff.mp h
    obtain ⟨kv, hs, h⟩ := Option.bind_eq_some_iff.mp h
    obtain ⟨-, -, -, rfl⟩ := KVServer.started_spec hs
    obtain rfl := Option.some_inj.mp h
    exact .start hh
  | work a task =>
    obtain ⟨kv, hw, h⟩ := Option.bind_eq_some_iff.mp h
    obtain rfl := Option.some_inj.mp h
    exact .work (.of_work hw)
  | receive a =>
    obtain ⟨op, hop, h⟩ := Option.bind_eq_some_iff.mp h
    obtain ⟨kv, hk, h⟩ := Option.bind_eq_some_iff.mp h
    obtain ⟨hg, rfl⟩ := KVServer.receive_spec hk
    obtain rfl := Option.some_inj.mp h
    exact .receive hop hg
  | receiveSnap a j =>
    obtain ⟨⟨index, data⟩, hj, h⟩ := Option.bind_eq_some_iff.mp h
    dsimp only at h
    split at h
    · next hlt =>
      obtain ⟨kv, hk, h⟩ := Option.bind_eq_some_iff.mp h
      obtain ⟨hg, rfl⟩ := KVServer.receive_spec hk
      obtain rfl := Option.some_inj.mp h
      exact .receiveSnap hj hlt hg
    · simp at h
  | check a size =>
    obtain ⟨kv, hc, h⟩ := Option.bind_eq_some_iff.mp h
    obtain rfl := Option.some_inj.mp h
    exact .check hc
  | snapshot a j =>
    obtain ⟨⟨index, data⟩, hj, h⟩ := Option.bind_eq_some_iff.mp h
    dsimp only at h
    split at h
    · obtain rfl := Option.some_inj.mp h
      exact .snapshot hj
    · obtain rfl := Option.some_inj.mp h
      exact .snapshotOld
  | install a j =>
    obtain ⟨⟨index, data⟩, hj, h⟩ := Option.bind_eq_some_iff.mp h
    dsimp only at h
    split at h
    · obtain rfl := Option.some_inj.mp h
      exact .install hj
    · simp at h
  | commit j =>
    obtain ⟨⟨op, floor⟩, hj, h⟩ := Option.bind_eq_some_iff.mp h
    dsimp only at h
    split at h
    · obtain rfl := Option.some_inj.mp h
      exact .commit hj
    · simp at h
  | restart a =>
    obtain rfl := Option.some_inj.mp h
    exact .restart

end Service

end DistLabs.KV
