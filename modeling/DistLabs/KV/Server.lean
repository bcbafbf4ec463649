import DistLabs.Raft.Server

/-!
# The key-value server

`server.go`, `common.go` and `help_snapshot.go` of `kvraft`: one incarnation of a `KVServer`, with
its goroutines.  The functions below are the sections the code runs with `kv.mu` held, and what it
does between two of them.

* `guardApply` is a loop over the messages of `applyCh`.  Its place in the loop is a `Guard`: it has
  received a message and not yet taken the lock, or released the lock in `notifyAndUnlock` and not
  yet sent the signal, or is about to check the size of the saved state.
* A `Get` or `PutAppend` that runs is a `Handler`, its place in the code a `Stage`.  A handler's
  channel has room for one signal, so the channel is a `Bool` of the handler, and `chanMap` leads
  from the key of a request to the handler that registered last.
* `go kv.rf.Snapshot(..)` evaluates its arguments at once and calls later: `snapshots` lists the
  calls that have not happened yet.

Of two keys `Sprintf("%d@%d", clientId, seqNum)` all that matters is whether they are equal, so the
pair is the key.  A Go `string` is the list of its bytes.
-/

set_option autoImplicit false

namespace DistLabs.KV

/-! ## Operations and the map -/

/-- `OpType`. -/
inductive OpType
  | get
  | put
  | append
deriving DecidableEq, Repr

/-- `Op`: what goes through the log. -/
structure Op where
  /-- What to do. -/
  type : OpType
  /-- The key it is about. -/
  key : Bytes
  /-- The argument of a `Put` or `Append`. -/
  value : Bytes
  /-- The clerk that asked. -/
  clientId : Int
  /-- The number the clerk gave the request. -/
  seqNum : Int
deriving DecidableEq, Repr

instance : Codec OpType :=
  .ofLeftInverse (α := UInt8)
    (fun
      | .get => 0
      | .put => 1
      | .append => 2)
    (fun b ↦ if b = 0 then some .get else if b = 1 then some .put else some .append)
    fun x ↦ by cases x <;> rfl

instance : Codec Op :=
  .ofLeftInverse (fun op ↦ (op.type, op.key, op.value, op.clientId, op.seqNum))
    (fun p ↦ some ⟨p.1, p.2.1, p.2.2.1, p.2.2.2.1, p.2.2.2.2⟩) fun _ ↦ rfl

/-- `helpKey`. -/
def helpKey (clientId seqNum : Int) : Int × Int := (clientId, seqNum)

/-- The key of the request an operation comes from. -/
def Op.request (op : Op) : Int × Int := helpKey op.clientId op.seqNum

/-- The two maps that make up the replicated state. -/
@[ext] structure Store where
  /-- The values. -/
  kvMap : AList fun _ : Bytes ↦ Bytes
  /-- The number of the last request of each client that was executed. -/
  lastSeq : AList fun _ : Int ↦ Int
deriving DecidableEq

namespace Store

/-- Two empty maps. -/
def empty : Store := ⟨∅, ∅⟩

/-- `kv.lastSeq[clientId]`; a missing key reads as `0`. -/
def seq (s : Store) (clientId : Int) : Int := (s.lastSeq.lookup clientId).getD 0

/-- `kv.kvMap[key]`; a missing key reads as the empty string. -/
def value (s : Store) (key : Bytes) : Bytes := (s.kvMap.lookup key).getD []

/-- The part of `guardApply` that executes an operation. -/
def execute (s : Store) (op : Op) : Store where
  kvMap := match op.type with
    | .get => s.kvMap
    | .put => s.kvMap.insert op.key op.value
    | .append => s.kvMap.insert op.key (s.value op.key ++ op.value)
  lastSeq := s.lastSeq.insert op.clientId op.seqNum

/-- `guardApply` skips an operation whose number is not beyond the last of its client. -/
def apply (s : Store) (op : Op) : Store :=
  if op.seqNum ≤ s.seq op.clientId then s else s.execute op

end Store

/-- The state after a list of operations. -/
def replay (ops : List Op) : Store := ops.foldl Store.apply .empty

@[simp] theorem replay_nil : replay [] = .empty := rfl

@[simp] theorem replay_concat (ops : List Op) (op : Op) :
    replay (ops ++ [op]) = (replay ops).apply op := by
  rw [replay, List.foldl_append]
  rfl

/-! ## Snapshots -/

/-- The three values `encodeSnapshot` writes. -/
@[ext] structure Image extends Store where
  /-- The index of the last message applied. -/
  lastApplied : Nat
deriving DecidableEq

/-- The state of a server that has applied exactly `ops`. -/
def image (ops : List Op) : Image := ⟨replay ops, ops.length⟩

instance : Codec Image :=
  .ofLeftInverse (fun im ↦ (im.kvMap, im.lastSeq, im.lastApplied))
    (fun p ↦ some ⟨⟨p.1, p.2.1⟩, p.2.2⟩) fun _ ↦ rfl

/-! ## The server -/

/-- What a handler answers; the answer of a `PutAppend` has no value. -/
inductive Reply
  | ok (value : Bytes)
  | noKey
  | wrongLeader
deriving DecidableEq, Repr

/-- How far a handler has come. -/
inductive Stage
  /-- Its channel is registered. -/
  | registered
  /-- `Start` has accepted the operation. -/
  | waiting
  /-- A `Get` has got the signal and has still to read the value. -/
  | woken
  /-- The answer is set, the deferred clean-up has still to run. -/
  | returning (reply : Reply)
  /-- The handler is done. -/
  | returned (reply : Reply)
deriving DecidableEq, Repr

/-- A `Get` or `PutAppend` that was called on the server. -/
structure Handler where
  /-- The operation it passes to `Start`. -/
  op : Op
  /-- Whether there is a signal in its channel. -/
  signal : Bool
  /-- How far it has come. -/
  stage : Stage
deriving DecidableEq, Repr

/-- The place of `guardApply` in its loop. -/
inductive Guard
  /-- At the top of the loop. -/
  | receiving
  /-- With a message in hand. -/
  | holding (msg : ApplyMsg Op)
  /-- Outside the lock with a handler to signal; whether the size check comes next. -/
  | notifying (waiter : Option Nat) (checks : Bool)
  /-- Before the size check. -/
  | checking
deriving DecidableEq, Repr

/-- One incarnation of a `KVServer`. -/
structure KVServer extends Image where
  /-- The handler that waits for a request. -/
  chanMap : AList fun _ : Int × Int ↦ Nat
  /-- Where `guardApply` is. -/
  guard : Guard
  /-- Every handler that was called. -/
  handlers : List Handler
  /-- The calls of `Snapshot` that are still to be made. -/
  snapshots : List (Nat × Bytes)
deriving DecidableEq

namespace KVServer

section Snapshot

variable [Labgob Image]

/-- `encodeSnapshot`. -/
def encodeSnapshot (kv : KVServer) : Bytes := Labgob.encode kv.toImage

/-- `decodeSnapshot`: what cannot be read is ignored. -/
def decodeSnapshot (kv : KVServer) (data : Bytes) : KVServer :=
  if data = [] then kv
  else match (Labgob.decode data : Option Image) with
    | none => kv
    | some im => { kv with toImage := im }

/-- `StartKVServer`, given the snapshot in the persister. -/
def startKVServer (snapshot : Bytes) : KVServer :=
  decodeSnapshot ⟨⟨.empty, 0⟩, ∅, .receiving, [], []⟩ snapshot

end Snapshot

/-! ### Handlers -/

/-- Change one handler. -/
def setStage (kv : KVServer) (h : Nat) (stage : Stage) : KVServer :=
  { kv with handlers := kv.handlers.modify h fun hd ↦ { hd with stage := stage } }

/-- `Get` and `PutAppend` up to the registration of the channel. -/
def handle (kv : KVServer) (op : Op) : KVServer :=
  { kv with
    chanMap := kv.chanMap.insert op.request kv.handlers.length
    handlers := kv.handlers ++ [⟨op, false, .registered⟩] }

/-- `Start` has returned. -/
def started (kv : KVServer) (h : Nat) (isLeader : Bool) : Option KVServer := do
  let hd ← kv.handlers[h]?
  if hd.stage = .registered then
    return kv.setStage h (if isLeader then .waiting else .returning .wrongLeader)
  else none

/-- The handler takes the signal out of its channel. -/
def take (kv : KVServer) (h : Nat) : Option KVServer := do
  let hd ← kv.handlers[h]?
  if hd.stage = .waiting ∧ hd.signal = true then
    let stage : Stage := if hd.op.type = .get then .woken else .returning (.ok [])
    return { kv with handlers := kv.handlers.set h { hd with signal := false, stage := stage } }
  else none

/-- What a `Get` answers. -/
def answer (kv : KVServer) (key : Bytes) : Reply :=
  match kv.kvMap.lookup key with
  | none => .noKey
  | some v => .ok v

/-- A `Get` that was woken reads the value. -/
def read (kv : KVServer) (h : Nat) : Option KVServer := do
  let hd ← kv.handlers[h]?
  if hd.stage = .woken then
    return kv.setStage h (.returning (kv.answer hd.op.key))
  else none

/-- The 500 ms are over. -/
def timeout (kv : KVServer) (h : Nat) : Option KVServer := do
  let hd ← kv.handlers[h]?
  if hd.stage = .waiting then return kv.setStage h (.returning .wrongLeader) else none

/-- The deferred clean-up, whoever registered under the key by now. -/
def leave (kv : KVServer) (h : Nat) : Option KVServer := do
  let hd ← kv.handlers[h]?
  match hd.stage with
  | .returning reply =>
    return { kv.setStage h (.returned reply) with chanMap := kv.chanMap.erase hd.op.request }
  | _ => none

/-! ### `guardApply` -/

/-- `guardApply` receives a message. -/
def receive (kv : KVServer) (msg : ApplyMsg Op) : Option KVServer :=
  if kv.guard = .receiving then some { kv with guard := .holding msg } else none

/-- The locked section for a command, up to the unlock in `notifyAndUnlock`. -/
def applyCommand (kv : KVServer) (index : Nat) (op : Op) : KVServer :=
  let waiter := kv.chanMap.lookup op.request
  if op.seqNum ≤ kv.seq op.clientId then
    { kv with lastApplied := index, guard := .notifying waiter false }
  else
    { kv with toStore := kv.execute op, lastApplied := index, guard := .notifying waiter true }

section Loop

variable [Labgob Image]

/-- The section that deals with the message in hand; the type assertion panics on a `nil` command.
-/
def process (kv : KVServer) : Option KVServer :=
  match kv.guard with
  | .holding (.snapshot index _ data) =>
    some { kv.decodeSnapshot data with lastApplied := index, guard := .receiving }
  | .holding (.command index (some op) _) => some (kv.applyCommand index op)
  | _ => none

/-- A send that gives up if the channel is full. -/
def signal (kv : KVServer) : Option Nat → List Handler
  | none => kv.handlers
  | some h => kv.handlers.modify h fun hd ↦ { hd with signal := true }

/-- The second half of `notifyAndUnlock`. -/
def notify (kv : KVServer) : Option KVServer :=
  match kv.guard with
  | .notifying waiter checks => some { kv with
      handlers := kv.signal waiter
      guard := if checks then .checking else .receiving }
  | _ => none

/-- The last section of the loop; `size` is what `RaftStateSize` returns. -/
def check (kv : KVServer) (maxraftstate : Int) (size : Nat) : Option KVServer :=
  if kv.guard = .checking then
    let snapshots := if maxraftstate ≠ -1 ∧ (size : Int) > maxraftstate
      then kv.snapshots ++ [(kv.lastApplied, kv.encodeSnapshot)] else kv.snapshots
    some { kv with snapshots := snapshots, guard := .receiving }
  else none

/-- What a server does by itself. -/
inductive Task
  | take (h : Nat)
  | read (h : Nat)
  | timeout (h : Nat)
  | leave (h : Nat)
  | process
  | notify
deriving DecidableEq, Repr

/-- One section. -/
def work (kv : KVServer) : Task → Option KVServer
  | .take h => kv.take h
  | .read h => kv.read h
  | .timeout h => kv.timeout h
  | .leave h => kv.leave h
  | .process => kv.process
  | .notify => kv.notify

/-! ### Outcomes -/

/-- The outcomes of a section. -/
inductive Works (kv : KVServer) : Task → KVServer → Prop
  | take {h : Nat} {hd : Handler} (hh : kv.handlers[h]? = some hd) (hs : hd.stage = .waiting)
      (hsig : hd.signal = true) :
      Works kv (.take h) { kv with handlers := kv.handlers.set h { hd with
        signal := false
        stage := if hd.op.type = .get then .woken else .returning (.ok []) } }
  | read {h : Nat} {hd : Handler} (hh : kv.handlers[h]? = some hd) (hs : hd.stage = .woken) :
      Works kv (.read h) (kv.setStage h (.returning (kv.answer hd.op.key)))
  | timeout {h : Nat} {hd : Handler} (hh : kv.handlers[h]? = some hd) (hs : hd.stage = .waiting) :
      Works kv (.timeout h) (kv.setStage h (.returning .wrongLeader))
  | leave {h : Nat} {hd : Handler} {reply : Reply} (hh : kv.handlers[h]? = some hd)
      (hs : hd.stage = .returning reply) :
      Works kv (.leave h)
        { kv.setStage h (.returned reply) with chanMap := kv.chanMap.erase hd.op.request }
  | snapshot {index : Nat} {T : Int} {data : Bytes}
      (hg : kv.guard = .holding (.snapshot index T data)) :
      Works kv .process { kv.decodeSnapshot data with lastApplied := index, guard := .receiving }
  | command {index : Nat} {op : Op} {T : Int}
      (hg : kv.guard = .holding (.command index (some op) T)) :
      Works kv .process (kv.applyCommand index op)
  | notify {waiter : Option Nat} {checks : Bool} (hg : kv.guard = .notifying waiter checks) :
      Works kv .notify { kv with
        handlers := kv.signal waiter
        guard := if checks then .checking else .receiving }

variable {kv kv' : KVServer}

theorem Works.of_work {t : Task} (hw : kv.work t = some kv') : kv.Works t kv' := by
  cases t with
  | take h =>
    obtain ⟨hd, hh, hw⟩ := Option.bind_eq_some_iff.mp hw
    split at hw
    · next hs =>
      obtain rfl := Option.some_inj.mp hw
      exact take hh hs.1 hs.2
    · simp at hw
  | read h =>
    obtain ⟨hd, hh, hw⟩ := Option.bind_eq_some_iff.mp hw
    split at hw
    · next hs =>
      obtain rfl := Option.some_inj.mp hw
      exact read hh hs
    · simp at hw
  | timeout h =>
    obtain ⟨hd, hh, hw⟩ := Option.bind_eq_some_iff.mp hw
    split at hw
    · next hs =>
      obtain rfl := Option.some_inj.mp hw
      exact timeout hh hs
    · simp at hw
  | leave h =>
    obtain ⟨hd, hh, hw⟩ := Option.bind_eq_some_iff.mp hw
    split at hw
    · next hs =>
      obtain rfl := Option.some_inj.mp hw
      exact leave hh hs
    · simp at hw
  | process =>
    change kv.process = some kv' at hw
    rw [process] at hw
    split at hw
    · next hg =>
      obtain rfl := Option.some_inj.mp hw
      exact snapshot hg
    · next hg =>
      obtain rfl := Option.some_inj.mp hw
      exact command hg
    · simp at hw
  | notify =>
    change kv.notify = some kv' at hw
    rw [KVServer.notify] at hw
    split at hw
    · next hg =>
      obtain rfl := Option.some_inj.mp hw
      exact notify hg
    · simp at hw

theorem Works.work_eq {t : Task} (hw : kv.Works t kv') : kv.work t = some kv' := by
  cases hw with
  | take hh hs hsig => simp [work, KVServer.take, hh, hs, hsig]
  | read hh hs => simp [work, KVServer.read, hh, hs]
  | timeout hh hs => simp [work, KVServer.timeout, hh, hs]
  | leave hh hs => simp [work, KVServer.leave, hh, hs]
  | snapshot hg => simp [work, process, hg]
  | command hg => simp [work, process, hg]
  | notify hg => simp [work, KVServer.notify, hg]

omit [Labgob Image] in
theorem started_spec {h : Nat} {isLeader : Bool} (hs : kv.started h isLeader = some kv') :
    ∃ hd, kv.handlers[h]? = some hd ∧ hd.stage = .registered ∧
      kv' = kv.setStage h (if isLeader then .waiting else .returning .wrongLeader) := by
  obtain ⟨hd, hh, hs⟩ := Option.bind_eq_some_iff.mp hs
  split at hs
  · next hst => exact ⟨hd, hh, hst, (Option.some_inj.mp hs).symm⟩
  · simp at hs

omit [Labgob Image] in
theorem receive_spec {msg : ApplyMsg Op} (hr : kv.receive msg = some kv') :
    kv.guard = .receiving ∧ kv' = { kv with guard := .holding msg } := by
  rw [receive] at hr
  split at hr
  · next hg => exact ⟨hg, (Option.some_inj.mp hr).symm⟩
  · simp at hr

theorem check_spec {maxraftstate : Int} {size : Nat} (hc : kv.check maxraftstate size = some kv') :
    kv.guard = .checking ∧
      (kv' = { kv with guard := .receiving } ∨
        maxraftstate ≠ -1 ∧ kv' = { kv with
          snapshots := kv.snapshots ++ [(kv.lastApplied, kv.encodeSnapshot)]
          guard := .receiving }) := by
  rw [check] at hc
  split at hc
  · next hg =>
    obtain rfl := Option.some_inj.mp hc
    refine ⟨hg, ?_⟩
    split
    · next hbig => exact Or.inr ⟨hbig.1, rfl⟩
    · exact Or.inl rfl
  · simp at hc

end Loop

/-! ### The replicated state -/

section State

variable [Labgob Image]

/-- A snapshot that was encoded is taken over whole. -/
theorem decodeSnapshot_encode (kv : KVServer) (im : Image) :
    kv.decodeSnapshot (Labgob.encode im) = { kv with toImage := im } := by
  rw [decodeSnapshot, if_neg (Labgob.encode_ne_nil im), Labgob.decode_encode]

/-- A snapshot concerns the replicated state only. -/
theorem decodeSnapshot_handlers (kv : KVServer) (data : Bytes) :
    (kv.decodeSnapshot data).handlers = kv.handlers ∧
      (kv.decodeSnapshot data).chanMap = kv.chanMap ∧
      (kv.decodeSnapshot data).guard = kv.guard := by
  rw [decodeSnapshot]
  split
  · exact ⟨rfl, rfl, rfl⟩
  · split <;> exact ⟨rfl, rfl, rfl⟩

/-- A server starts without handlers. -/
theorem startKVServer_handlers (snapshot : Bytes) : (startKVServer snapshot).handlers = [] ∧
    (startKVServer snapshot).chanMap = ∅ ∧ (startKVServer snapshot).guard = .receiving :=
  decodeSnapshot_handlers _ _

omit [Labgob Image] in
/-- **One command**: duplicate or not, the replicated state moves as `Store.apply` says. -/
theorem applyCommand_toImage (kv : KVServer) (index : Nat) (op : Op) :
    (kv.applyCommand index op).toImage = ⟨kv.toStore.apply op, index⟩ := by
  rw [applyCommand, Store.apply]
  split <;> rfl

omit [Labgob Image] in
/-- Either way the handlers stay, and the one to be signalled is looked up in `chanMap`. -/
theorem applyCommand_handlers (kv : KVServer) (index : Nat) (op : Op) :
    (kv.applyCommand index op).handlers = kv.handlers ∧
      (kv.applyCommand index op).chanMap = kv.chanMap ∧
      ∃ b, (kv.applyCommand index op).guard = .notifying (kv.chanMap.lookup op.request) b := by
  rw [applyCommand]
  split <;> exact ⟨rfl, rfl, _, rfl⟩

end State

end KVServer

end DistLabs.KV
