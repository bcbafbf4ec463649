import DistLabs.KV.Service
import DistLabs.KV.Snapshots

/-!
# Clerks, key-value servers and Raft servers

The program as it is run: the clerks of `client.go`, the key-value servers they call, and below
these the cluster of Raft servers, with nothing assumed about it.

A clerk calls the server it takes for the leader.  If the call fails, or the server says that it
does not lead, the clerk takes the next one for the leader and tries again, with the same number.
The network between clerks and servers is that of `DistLabs.KV.Service`: a request may reach its
server late or never, its answer too, and the clerk may be told of a failure at any time.

`hist` is the history of the calls of all clerks.
-/

set_option autoImplicit false

namespace DistLabs.KV

/-- `Clerk`, with the server it takes for the leader. -/
structure Client (n : Nat) extends Clerk where
  /-- Where its next request goes. -/
  leader : Fin n

/-- `ck.leader = (ck.leader + 1) % len(ck.servers)`. -/
def Client.turn {n : Nat} [NeZero n] (ck : Client n) : Client n :=
  { ck with leader := ck.leader + 1 }

/-- Everything. -/
structure Deployment (n : Nat) where
  /-- The servers of both kinds. -/
  system : System n
  /-- The clerks. -/
  client : Int → Client n
  /-- Every request ever made. -/
  requests : List (Request n)
  /-- The calls of the clerks. -/
  hist : List (CallEvent (Int × Int) Call Bytes)

/-- What can happen. -/
inductive Deed (n : Nat)
  /-- The servers do something, without a clerk. -/
  | system (act : Act n)
  /-- A clerk is called. -/
  | invoke (c : Int) (call : Call)
  /-- A clerk sends its request. -/
  | send (c : Int)
  /-- A clerk's RPC fails. -/
  | lose (c : Int)
  /-- The answer to the request a clerk waits for reaches it. -/
  | reply (c : Int)
  /-- A request reaches its server. -/
  | deliver (r : Nat)
  /-- A handler has returned, and the server sends its answer. -/
  | answer (r : Nat)
  /-- A server crashes and restarts. -/
  | restart (a : Fin n)

/-- The actions of the servers in which no request arrives and no server crashes. -/
def Act.inner {n : Nat} : Act n → Bool
  | .handle _ _ | .restart _ => false
  | .raft _ | .start _ _ | .work _ _ | .receive _ | .receiveSnap _ _ | .check _
  | .snapshot _ _ => true

/-- The requests that a server had in hand are lost when it crashes. -/
def loseRequests {n : Nat} (a : Fin n) (requests : List (Request n)) : List (Request n) :=
  requests.map fun rq ↦ match rq.progress with
    | .running _ => if rq.server = a then { rq with progress := .lost } else rq
    | _ => rq

namespace Deployment

variable {n : Nat}

/-- Replace one clerk. -/
def setClient (δ : Deployment n) (c : Int) (ck : Client n) : Deployment n :=
  { δ with client := Function.update δ.client c ck }

/-- A clerk is called. -/
def invoke (δ : Deployment n) (c : Int) (call : Call) : Option (Deployment n) :=
  let ck := δ.client c
  if ck.call = none then some { δ.setClient c { ck with call := some call } with
    hist := δ.hist ++ [.invoke (c, ck.seqNum) call] }
  else none

/-- The top of the loop in `Get` and `PutAppend`. -/
def send (δ : Deployment n) (c : Int) : Option (Deployment n) := do
  let ck := δ.client c
  let call ← ck.call
  if ck.waiting = none then
    return { δ.setClient c { ck with waiting := some δ.requests.length } with
      requests := δ.requests ++ [⟨ck.leader, call.op c ck.seqNum, .sent⟩] }
  else none

/-- The answer leaves the server. -/
def answer (δ : Deployment n) (r : Nat) : Option (Deployment n) := do
  let rq ← δ.requests[r]?
  match rq.progress with
  | .running h =>
    let hd ← (δ.system.server rq.server).handlers[h]?
    match hd.stage with
    | .returned reply =>
      return { δ with requests := δ.requests.set r { rq with progress := .answered reply } }
    | _ => none
  | _ => none

section Turn

variable [NeZero n]

/-- `Call` returns `false`. -/
def lose (δ : Deployment n) (c : Int) : Option (Deployment n) :=
  let ck := δ.client c
  if ck.waiting = none then none else
    some (δ.setClient c { ck with waiting := none }.turn)

/-- `Call` returns `true`; the rest of the loop. -/
def reply (δ : Deployment n) (c : Int) : Option (Deployment n) := do
  let ck := δ.client c
  let call ← ck.call
  let r ← ck.waiting
  let rq ← δ.requests[r]?
  match rq.progress with
  | .answered .wrongLeader => return δ.setClient c { ck with waiting := none }.turn
  | .answered reply =>
    match call.result reply with
    | none => return δ.setClient c { ck with waiting := none }
    | some v => return { δ.setClient c ⟨⟨ck.seqNum + 1, none, none⟩, ck.leader⟩ with
        hist := δ.hist ++ [.respond (c, ck.seqNum) v] }
  | _ => none

end Turn

variable [Labgob (Saved n Op)] [Labgob Image]

/-- A handler is called. -/
def deliver (maxraftstate : Int) (δ : Deployment n) (r : Nat) : Option (Deployment n) := do
  let rq ← δ.requests[r]?
  if rq.progress = .sent then
    let system ← δ.system.step maxraftstate (.handle rq.server rq.op)
    return { δ with
      system := system
      requests := δ.requests.set r
        { rq with progress := .running (δ.system.server rq.server).handlers.length } }
  else none

/-- A server crashes and restarts. -/
def restart (maxraftstate : Int) (δ : Deployment n) (a : Fin n) : Option (Deployment n) := do
  let system ← δ.system.step maxraftstate (.restart a)
  return { δ with system := system, requests := loseRequests a δ.requests }

variable [NeZero n]

/-- The start of every run: `MakeClerk` leaves `leader` at `0`. -/
def init : Deployment n := ⟨.init, fun _ ↦ ⟨.make, 0⟩, [], []⟩

/-- One deed. -/
def step (maxraftstate : Int) (δ : Deployment n) : Deed n → Option (Deployment n)
  | .system act =>
    if act.inner then do
      let system ← δ.system.step maxraftstate act
      return { δ with system := system }
    else none
  | .invoke c call => δ.invoke c call
  | .send c => δ.send c
  | .lose c => δ.lose c
  | .reply c => δ.reply c
  | .deliver r => δ.deliver maxraftstate r
  | .answer r => δ.answer r
  | .restart a => δ.restart maxraftstate a

/-- The deployment as a machine. -/
def machine (n : Nat) [NeZero n] [Labgob (Saved n Op)] (maxraftstate : Int) :
    Machine (Deployment n) (Deed n) :=
  ⟨init, step maxraftstate⟩

/-! ## Outcomes -/

/-- The outcomes of a deed. -/
inductive Step (maxraftstate : Int) (δ : Deployment n) : Deed n → Deployment n → Prop
  | system {act : Act n} {system : System n} (hin : act.inner = true)
      (hs : δ.system.step maxraftstate act = some system) :
      Step maxraftstate δ (.system act) { δ with system := system }
  | invoke {c : Int} {call : Call} (hc : (δ.client c).call = none) :
      Step maxraftstate δ (.invoke c call)
        { δ.setClient c { δ.client c with call := some call } with
          hist := δ.hist ++ [.invoke (c, (δ.client c).seqNum) call] }
  | send {c : Int} {call : Call} (hc : (δ.client c).call = some call)
      (hw : (δ.client c).waiting = none) :
      Step maxraftstate δ (.send c)
        { δ.setClient c { δ.client c with waiting := some δ.requests.length } with
          requests := δ.requests ++
            [⟨(δ.client c).leader, call.op c (δ.client c).seqNum, .sent⟩] }
  | lose {c : Int} (hw : (δ.client c).waiting ≠ none) :
      Step maxraftstate δ (.lose c)
        (δ.setClient c { δ.client c with waiting := none, leader := (δ.client c).leader + 1 })
  | retry {c : Int} {call : Call} {r : Nat} {rq : Request n} {reply : Reply} {leader : Fin n}
      (hc : (δ.client c).call = some call) (hw : (δ.client c).waiting = some r)
      (hr : δ.requests[r]? = some rq) (hp : rq.progress = .answered reply)
      (hv : call.result reply = none)
      (hl : leader = if reply = .wrongLeader then (δ.client c).leader + 1
        else (δ.client c).leader) :
      Step maxraftstate δ (.reply c)
        (δ.setClient c { δ.client c with waiting := none, leader := leader })
  | reply {c : Int} {call : Call} {r : Nat} {rq : Request n} {reply : Reply} {v : Bytes}
      (hc : (δ.client c).call = some call) (hw : (δ.client c).waiting = some r)
      (hr : δ.requests[r]? = some rq) (hp : rq.progress = .answered reply)
      (hv : call.result reply = some v) :
      Step maxraftstate δ (.reply c)
        { δ.setClient c ⟨⟨(δ.client c).seqNum + 1, none, none⟩, (δ.client c).leader⟩ with
          hist := δ.hist ++ [.respond (c, (δ.client c).seqNum) v] }
  | deliver {r : Nat} {rq : Request n} {system : System n} (hr : δ.requests[r]? = some rq)
      (hp : rq.progress = .sent)
      (hs : δ.system.step maxraftstate (.handle rq.server rq.op) = some system) :
      Step maxraftstate δ (.deliver r) { δ with
        system := system
        requests := δ.requests.set r
          { rq with progress := .running (δ.system.server rq.server).handlers.length } }
  | answer {r h : Nat} {rq : Request n} {hd : Handler} {reply : Reply}
      (hr : δ.requests[r]? = some rq) (hp : rq.progress = .running h)
      (hh : (δ.system.server rq.server).handlers[h]? = some hd) (hs : hd.stage = .returned reply) :
      Step maxraftstate δ (.answer r)
        { δ with requests := δ.requests.set r { rq with progress := .answered reply } }
  | restart {a : Fin n} {system : System n}
      (hs : δ.system.step maxraftstate (.restart a) = some system) :
      Step maxraftstate δ (.restart a)
        { δ with system := system, requests := loseRequests a δ.requests }

variable {maxraftstate : Int} {δ δ' : Deployment n} {deed : Deed n}

omit [Labgob (Saved n Op)] [Labgob Image] [NeZero n] in
theorem result_wrongLeader (call : Call) : call.result .wrongLeader = none := by
  cases call <;> rfl

theorem Step.of_step (h : δ.step maxraftstate deed = some δ') : Step maxraftstate δ deed δ' := by
  cases deed with
  | system act =>
    rw [Deployment.step] at h
    split at h
    · next hin =>
      obtain ⟨system, hs, h⟩ := Option.bind_eq_some_iff.mp h
      obtain rfl := Option.some_inj.mp h
      exact .system hin hs
    · simp at h
  | invoke c call =>
    change δ.invoke c call = some δ' at h
    rw [Deployment.invoke] at h
    dsimp only at h
    split at h
    · next hc =>
      obtain rfl := Option.some_inj.mp h
      exact .invoke hc
    · simp at h
  | send c =>
    obtain ⟨call, hc, h⟩ := Option.bind_eq_some_iff.mp h
    split at h
    · next hw =>
      obtain rfl := Option.some_inj.mp h
      exact .send hc hw
    · simp at h
  | lose c =>
    change δ.lose c = some δ' at h
    rw [Deployment.lose] at h
    split at h
    · simp at h
    · next hw =>
      obtain rfl := Option.some_inj.mp h
      exact .lose hw
  | reply c =>
    obtain ⟨call, hc, h⟩ := Option.bind_eq_some_iff.mp h
    obtain ⟨r, hw, h⟩ := Option.bind_eq_some_iff.mp h
    obtain ⟨rq, hr, h⟩ := Option.bind_eq_some_iff.mp h
    split at h
    · next hp =>
      obtain rfl := Option.some_inj.mp h
      exact .retry hc hw hr hp (result_wrongLeader call) (by rw [if_pos rfl])
    · next reply hne hp =>
      split at h
      · next hv =>
        obtain rfl := Option.some_inj.mp h
        exact .retry hc hw hr hp hv (by rw [if_neg hne])
      · next v hv =>
        obtain rfl := Option.some_inj.mp h
        exact .reply hc hw hr hp hv
    · simp at h
  | deliver r =>
    obtain ⟨rq, hr, h⟩ := Option.bind_eq_some_iff.mp h
    split at h
    · next hp =>
      obtain ⟨system, hs, h⟩ := Option.bind_eq_some_iff.mp h
      obtain rfl := Option.some_inj.mp h
      exact .deliver hr hp hs
    · simp at h
  | answer r =>
    obtain ⟨rq, hr, h⟩ := Option.bind_eq_some_iff.mp h
    split at h
    · next k hp =>
      obtain ⟨hd, hh, h⟩ := Option.bind_eq_some_iff.mp h
      split at h
      · next reply hs =>
        obtain rfl := Option.some_inj.mp h
        exact .answer hr hp hh hs
      · simp at h
    · simp at h
  | restart a =>
    obtain ⟨system, hs, h⟩ := Option.bind_eq_some_iff.mp h
    obtain rfl := Option.some_inj.mp h
    exact .restart hs

/-! ## The servers below -/

omit [Labgob (Saved n Op)] [Labgob Image] [NeZero n] in
/-- If the deed is a receive from `applyCh`, it takes the oldest message on offer. -/
def TakesOldest (δ : Deployment n) : Deed n → Prop
  | .system act => δ.system.TakesOldest act
  | _ => True

instance (δ : Deployment n) : (deed : Deed n) → Decidable (δ.TakesOldest deed)
  | .system act => inferInstanceAs (Decidable (δ.system.TakesOldest act))
  | .invoke _ _ | .send _ | .lose _ | .reply _ | .deliver _ | .answer _ | .restart _ =>
    isTrue trivial

/-- A deed leaves the servers alone or is an action of theirs. -/
theorem Step.system_cases (h : Step maxraftstate δ deed δ') :
    δ'.system = δ.system ∨
    ∃ act, δ.system.step maxraftstate act = some δ'.system ∧
      (δ.TakesOldest deed → δ.system.TakesOldest act) := by
  cases h with
  | system _ hs => exact Or.inr ⟨_, hs, id⟩
  | deliver _ _ hs | restart hs => exact Or.inr ⟨_, hs, fun _ ↦ trivial⟩
  | invoke | send | lose | retry | reply | answer => exact Or.inl rfl

omit [NeZero n] in
/-- The Raft half of a run of the servers, whatever its steps are. -/
theorem reach_cluster {P : System n → Act n → System n → Prop} {s : System n}
    (h : (System.machine n maxraftstate).Reach P s) :
    (Cluster.machine n Op).Reach (fun _ _ _ ↦ True) s.raft := by
  refine h.project (f := System.raft) rfl fun s act s' hs _ ↦ ?_
  rcases (System.Step.of_step hs).raft_cases with hsame | ⟨act', hr, -⟩
  · exact Or.inl hsame
  · exact Or.inr ⟨act', hr, trivial⟩

/-- **The servers' half of a run is a run of the servers.** -/
theorem reach_system {P : Deployment n → Deed n → Deployment n → Prop}
    {P' : System n → Act n → System n → Prop}
    (himp : ∀ δ deed δ' act, P δ deed δ' → (δ.TakesOldest deed → δ.system.TakesOldest act) →
      P' δ.system act δ'.system) (h : (machine n maxraftstate).Reach P δ) :
    (System.machine n maxraftstate).Reach P' δ.system := by
  refine h.project (f := Deployment.system) rfl fun δ deed δ' hs hp ↦ ?_
  rcases (Step.of_step hs).system_cases with hsame | ⟨act, hact, hold⟩
  · exact Or.inl hsame
  · exact Or.inr ⟨act, hact, himp δ deed δ' act hp hold⟩

end Deployment

end DistLabs.KV
