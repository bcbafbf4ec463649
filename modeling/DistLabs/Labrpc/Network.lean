import DistLabs.Labgob
import DistLabs.Lib.Machine
import Mathlib.Logic.Function.Basic

/-!
# The network of the labs

`labrpc`: ends of clients, servers and the network that carries the calls of the ones to the
handlers of the others.  A call is served by several goroutines:

* the caller, which hands its request to the network and waits for an answer (`Caller`);
* `processReq`, which looks up the server, may drop the request or the reply, and watches whether
  the server is still there while the handler runs (`Proc`);
* the goroutine that runs the handler (`Handler`), which goes on when `processReq` has given up.

One more goroutine takes the requests from the channel all callers share.  Coins and delays are the
choice of the next action.  `longDelays` only says how long a request to nowhere takes, so it is
left out.  What the handler does is up to the server: it may return anything, at any time or never.

`log.Fatalf` and panics end the process: `crashed` is set and nothing happens any more.

`hist` records what the theorems are about; no action reads it.
-/

set_option autoImplicit false

namespace DistLabs.Labrpc

/-! ## Servers and services -/

/-- A method of an object, as far as reflection shows it to `MakeService`. -/
structure Method where
  /-- Its name. -/
  name : Bytes
  /-- Whether it is exported, that is, has no `PkgPath`. -/
  exported : Bool
  /-- The number of its arguments, with the receiver. -/
  numIn : Nat
  /-- Whether its third argument is a pointer. -/
  ptrReply : Bool
  /-- The number of its results. -/
  numOut : Nat

/-- Whether a method looks like a handler. -/
def Method.suitable (m : Method) : Bool :=
  m.exported && m.numIn == 3 && m.ptrReply && m.numOut == 0

/-- `Service`. -/
structure Service where
  /-- The name of the type of the receiver. -/
  name : Bytes
  /-- The names of the methods that can be called. -/
  methods : List Bytes

/-- `MakeService`. -/
def makeService (name : Bytes) (ms : List Method) : Service :=
  ⟨name, (ms.filter Method.suitable).map (·.name)⟩

/-- `Server`. -/
structure Server where
  /-- The services, by name. -/
  services : Bytes → Option Service
  /-- How many requests have come in. -/
  count : Nat

/-- `MakeServer`. -/
def makeServer : Server := ⟨fun _ ↦ none, 0⟩

/-- `AddService`. -/
def Server.addService (rs : Server) (svc : Service) : Server :=
  { rs with services := Function.update rs.services svc.name (some svc) }

/-- The dot between the service and the method. -/
def dot : UInt8 := 46

/-- The service and the method of a name such as `Raft.AppendEntries`, which are separated by the
last dot.  Without a dot the slice expression panics. -/
def splitName (svcMeth : Bytes) : Option (Bytes × Bytes) :=
  if dot ∈ svcMeth then
    let i := svcMeth.reverse.idxOf dot
    some ((svcMeth.reverse.drop (i + 1)).reverse, (svcMeth.reverse.take i).reverse)
  else none

theorem splitName_append (svc : Bytes) {meth : Bytes} (h : dot ∉ meth) :
    splitName (svc ++ dot :: meth) = some (svc, meth) := by
  have hidx : (meth.reverse ++ dot :: svc.reverse).idxOf dot = meth.length := by
    rw [List.idxOf_append_of_notMem (by simpa using h)]
    simp
  simp [splitName, hidx, List.drop_append]

/-- Whether a server can serve a method: both `dispatch` functions find what they look for. -/
def Server.serves (rs : Server) (svcMeth : Bytes) : Bool :=
  match splitName svcMeth with
  | none => false
  | some (service, method) =>
    match rs.services service with
    | none => false
    | some svc => decide (method ∈ svc.methods)

/-! ## The network -/

/-- `replyMsg`. -/
structure ReplyMsg where
  /-- Whether there is a reply. -/
  ok : Bool
  /-- The reply, encoded. -/
  reply : Bytes
deriving DecidableEq

/-- The answer that stands for a timeout. -/
def ReplyMsg.fail : ReplyMsg := ⟨false, []⟩

/-- What `processReq` has read about its end, if there is a server to call. -/
structure Info (N : Type) where
  /-- The name of the server. -/
  servername : N
  /-- The server. -/
  server : Nat
  /-- Whether the network was reliable. -/
  reliable : Bool
  /-- Whether replies may be delayed for long. -/
  longreordering : Bool

/-- Where `Call` is. -/
inductive Caller (β : Type)
  /-- At the `select`, with the request. -/
  | sending
  /-- Waiting for the reply. -/
  | waiting
  /-- It has returned, `true` with a reply or `false`. -/
  | returned (reply : Option β)

/-- Where `processReq` is. -/
inductive Proc (N : Type)
  /-- Not started. -/
  | idle
  /-- Before `readEndnameInfo`. -/
  | start
  /-- There is no server to call. -/
  | unreachable
  /-- The request may still be dropped. -/
  | admitted (i : Info N)
  /-- In the loop, with the handler running. -/
  | serving (i : Info N)
  /-- After the loop, with the reply if there is one. -/
  | checking (i : Info N) (reply : Option ReplyMsg)
  /-- The server is still there; the reply may still be dropped or delayed. -/
  | deciding (i : Info N) (reply : ReplyMsg)
  /-- The timer that will send the reply is running. -/
  | delayed (reply : ReplyMsg)
  /-- Sending the reply. -/
  | replying (reply : ReplyMsg)
  /-- Done. -/
  | done

/-- Where the goroutine is that runs the handler. -/
inductive Handler (α : Type)
  /-- Not started. -/
  | idle
  /-- Before `dispatch`. -/
  | spawned (server : Nat)
  /-- The method is running. -/
  | running (server : Nat) (args : α)
  /-- Sending the reply on `ech`. -/
  | offering (server : Nat) (reply : ReplyMsg)
  /-- Done. -/
  | done

/-- A call: the request, and the goroutines that deal with it. -/
structure Request (E N α β : Type) where
  /-- The name of the end. -/
  endname : E
  /-- The service and the method. -/
  svcMeth : Bytes
  /-- The arguments, encoded. -/
  args : Bytes
  /-- The goroutine that called. -/
  caller : Caller β
  /-- `processReq`. -/
  proc : Proc N
  /-- The goroutine of the handler. -/
  handler : Handler α
  /-- Whether `processReq` has given up and started the goroutine that drains `ech`. -/
  drained : Bool

/-- What happened, for the record. -/
inductive Event (E N α β : Type)
  /-- `Call` was called. -/
  | called (c : Nat) (endname : E) (svcMeth : Bytes) (args : α)
  /-- The method of a call was started on a server. -/
  | ran (c : Nat) (server : Nat) (args : α)
  /-- The method returned. -/
  | finished (c : Nat) (reply : β)
  /-- `Call` returned. -/
  | returned (c : Nat) (reply : Option β)
  /-- `MakeEnd`. -/
  | made (endname : E)
  /-- `AddServer`. -/
  | added (servername : N) (server : Nat)
  /-- `DeleteServer`. -/
  | deleted (servername : N)
  /-- `Connect`. -/
  | connected (endname : E) (servername : N)
  /-- `Enable`. -/
  | enabled (endname : E) (yes : Bool)
deriving DecidableEq

/-- Who is connected to whom. -/
structure Config (E N : Type) where
  /-- Whether an end is enabled. -/
  enabled : E → Bool
  /-- The servers, by name. -/
  servers : N → Option Nat
  /-- The names of the servers that ends are connected to. -/
  connections : E → Option N

namespace Config

variable {E N α β : Type} [DecidableEq E] [DecidableEq N]

/-- `MakeNetwork`: no end, no server. -/
def empty : Config E N := ⟨fun _ ↦ false, fun _ ↦ none, fun _ ↦ none⟩

/-- What `MakeEnd`, `AddServer`, `DeleteServer`, `Connect` and `Enable` change. -/
def apply (g : Config E N) : Event E N α β → Config E N
  | .made e => { g with
      enabled := Function.update g.enabled e false
      connections := Function.update g.connections e none }
  | .added name srv => { g with servers := Function.update g.servers name (some srv) }
  | .deleted name => { g with servers := Function.update g.servers name none }
  | .connected e name => { g with connections := Function.update g.connections e (some name) }
  | .enabled e yes => { g with enabled := Function.update g.enabled e yes }
  | _ => g

/-- Who is connected to whom after the events of a history. -/
def after (hist : List (Event E N α β)) : Config E N := hist.foldl apply empty

/-- The server that a request from `e` goes to: its name, and the server itself. -/
def route (g : Config E N) (e : E) : Option (N × Nat) :=
  if g.enabled e then
    match g.connections e with
    | none => none
    | some name => (g.servers name).map fun srv ↦ (name, srv)
  else none

/-- `isServerDead`. -/
def isServerDead (g : Config E N) (e : E) (name : N) (srv : Nat) : Bool :=
  !g.enabled e || decide (g.servers name ≠ some srv)

end Config

/-- `Network`, with the goroutines of the calls and all servers that were ever made. -/
structure Network (E N α β : Type) where
  /-- Whether requests and replies are never dropped. -/
  reliable : Bool
  /-- Whether replies may be delayed for long. -/
  longReordering : Bool
  /-- The names of the ends. -/
  ends : List E
  /-- Who is connected to whom. -/
  config : Config E N
  /-- Whether `done` is closed. -/
  done : Bool
  /-- Whether the goroutine that takes requests is in its loop. -/
  listening : Bool
  /-- The number of requests. -/
  count : Nat
  /-- The number of bytes sent. -/
  bytes : Nat
  /-- Every server that was made. -/
  made : List Server
  /-- Every call. -/
  requests : List (Request E N α β)
  /-- Whether the process has ended. -/
  crashed : Bool
  /-- What happened so far, oldest first. -/
  hist : List (Event E N α β)

/-- What can happen. -/
inductive Action (E N α β : Type)
  /-- `Reliable`. -/
  | reliable (yes : Bool)
  /-- `LongReordering`. -/
  | longReordering (yes : Bool)
  /-- `MakeEnd`. -/
  | makeEnd (e : E)
  /-- `MakeServer` and the calls of `AddService` on it. -/
  | makeServer (services : List Service)
  /-- `AddServer`. -/
  | addServer (name : N) (srv : Nat)
  /-- `DeleteServer`. -/
  | deleteServer (name : N)
  /-- `Connect`. -/
  | connect (e : E) (name : N)
  /-- `Enable`. -/
  | enable (e : E) (yes : Bool)
  /-- `Cleanup`. -/
  | cleanup
  /-- A goroutine calls `Call` on an end. -/
  | call (e : E) (svcMeth : Bytes) (args : α)
  /-- The request of a call is taken from the channel. -/
  | accept (c : Nat)
  /-- A call finds that the network is gone. -/
  | abandon (c : Nat)
  /-- The goroutine that takes requests finds that the network is gone. -/
  | stop
  /-- `processReq` runs `readEndnameInfo`. -/
  | lookup (c : Nat)
  /-- The time of a request to nowhere is up. -/
  | expire (c : Nat)
  /-- The request is dropped. -/
  | drop (c : Nat)
  /-- The request is not dropped, and the goroutine for the handler is started. -/
  | execute (c : Nat)
  /-- The request is dispatched and its method started. -/
  | dispatch (c : Nat)
  /-- The method returns. -/
  | finish (c : Nat) (reply : β)
  /-- `processReq` receives the reply of the handler. -/
  | take (c : Nat)
  /-- `processReq` looks whether the server is still there. -/
  | poll (c : Nat)
  /-- The reply of a handler that nobody waits for is drained. -/
  | drain (c : Nat)
  /-- `processReq` looks for the last time whether the server is still there. -/
  | check (c : Nat)
  /-- The reply is dropped. -/
  | dropReply (c : Nat)
  /-- The reply is delayed. -/
  | delay (c : Nat)
  /-- The reply is sent. -/
  | reply (c : Nat)
  /-- The time of a delayed reply is up. -/
  | fire (c : Nat)
  /-- The caller receives the answer. -/
  | receive (c : Nat)

/-- Whether an action is a step of a goroutine of the network or of a handler.  The others are calls
of the functions of the package. -/
def Action.routine {E N α β : Type} : Action E N α β → Bool
  | .reliable _ | .longReordering _ | .makeEnd _ | .makeServer _ | .addServer _ _ => false
  | .deleteServer _ | .connect _ _ | .enable _ _ | .cleanup | .call _ _ _ => false
  | _ => true

namespace Network

variable {E N α β : Type}

/-- `MakeNetwork`. -/
def makeNetwork : Network E N α β where
  reliable := true
  longReordering := false
  ends := []
  config := .empty
  done := false
  listening := true
  count := 0
  bytes := 0
  made := []
  requests := []
  crashed := false
  hist := []

/-- Replace one request. -/
def setRequest (rn : Network E N α β) (c : Nat) (r : Request E N α β) : Network E N α β :=
  { rn with requests := rn.requests.set c r }

/-- The process ends. -/
def fatal (rn : Network E N α β) : Network E N α β := { rn with crashed := true }

/-- The goroutine of `MakeNetwork` takes a request, counts it and starts `processReq`. -/
def accept (rn : Network E N α β) (c : Nat) : Option (Network E N α β) := do
  let r ← rn.requests[c]?
  match r.caller with
  | .sending =>
    if rn.listening = true then
      return { rn.setRequest c { r with caller := .waiting, proc := .start } with
        count := rn.count + 1, bytes := rn.bytes + r.args.length }
    else none
  | _ => none

/-- The other case of the `select` in `Call`. -/
def abandon (rn : Network E N α β) (c : Nat) : Option (Network E N α β) := do
  let r ← rn.requests[c]?
  match r.caller with
  | .sending =>
    if rn.done = true then
      return { rn.setRequest c { r with caller := .returned none } with
        hist := rn.hist ++ [.returned c none] }
    else none
  | _ => none

/-- The goroutine of `MakeNetwork` returns. -/
def stop (rn : Network E N α β) : Option (Network E N α β) :=
  if rn.listening = true ∧ rn.done = true then some { rn with listening := false } else none

/-- The timer of a request to nowhere. -/
def expire (rn : Network E N α β) (c : Nat) : Option (Network E N α β) := do
  let r ← rn.requests[c]?
  match r.proc with
  | .unreachable => return rn.setRequest c { r with proc := .replying .fail }
  | _ => none

/-- An unreliable network may drop the request. -/
def drop (rn : Network E N α β) (c : Nat) : Option (Network E N α β) := do
  let r ← rn.requests[c]?
  match r.proc with
  | .admitted i =>
    if i.reliable = false then return rn.setRequest c { r with proc := .replying .fail }
    else none
  | _ => none

/-- `processReq` starts the goroutine that runs the handler. -/
def execute (rn : Network E N α β) (c : Nat) : Option (Network E N α β) := do
  let r ← rn.requests[c]?
  match r.proc with
  | .admitted i =>
    return rn.setRequest c { r with proc := .serving i, handler := .spawned i.server }
  | _ => none

/-- `processReq` receives from `ech`. -/
def take (rn : Network E N α β) (c : Nat) : Option (Network E N α β) := do
  let r ← rn.requests[c]?
  match r.proc, r.handler with
  | .serving i, .offering _ reply =>
    return rn.setRequest c { r with proc := .checking i (some reply), handler := .done }
  | _, _ => none

/-- The goroutine that drains `ech`. -/
def drain (rn : Network E N α β) (c : Nat) : Option (Network E N α β) := do
  let r ← rn.requests[c]?
  match r.handler with
  | .offering _ _ =>
    if r.drained = true then return rn.setRequest c { r with handler := .done } else none
  | _ => none

/-- An unreliable network may drop the reply. -/
def dropReply (rn : Network E N α β) (c : Nat) : Option (Network E N α β) := do
  let r ← rn.requests[c]?
  match r.proc with
  | .deciding i _ =>
    if i.reliable = false then return rn.setRequest c { r with proc := .replying .fail }
    else none
  | _ => none

/-- A network with long reordering may delay the reply. -/
def delay (rn : Network E N α β) (c : Nat) : Option (Network E N α β) := do
  let r ← rn.requests[c]?
  match r.proc with
  | .deciding i reply =>
    if i.longreordering = true then return rn.setRequest c { r with proc := .delayed reply }
    else none
  | _ => none

/-- The reply is counted and sent. -/
def reply (rn : Network E N α β) (c : Nat) : Option (Network E N α β) := do
  let r ← rn.requests[c]?
  match r.proc with
  | .deciding _ reply =>
    return { rn.setRequest c { r with proc := .replying reply } with
      bytes := rn.bytes + reply.reply.length }
  | _ => none

/-- The timer of a delayed reply. -/
def fire (rn : Network E N α β) (c : Nat) : Option (Network E N α β) := do
  let r ← rn.requests[c]?
  match r.proc with
  | .delayed reply =>
    return { rn.setRequest c { r with proc := .replying reply } with
      bytes := rn.bytes + reply.reply.length }
  | _ => none

variable [DecidableEq E] [DecidableEq N]

/-- The administration of the network records what it does. -/
def administer (rn : Network E N α β) (ev : Event E N α β) : Network E N α β :=
  { rn with config := rn.config.apply ev, hist := rn.hist ++ [ev] }

/-- `MakeEnd`; the name must be new. -/
def makeEnd (rn : Network E N α β) (e : E) : Network E N α β :=
  if e ∈ rn.ends then rn.fatal else { rn.administer (.made e) with ends := rn.ends ++ [e] }

/-- `AddServer`, of a server that was made. -/
def addServer (rn : Network E N α β) (name : N) (srv : Nat) : Option (Network E N α β) :=
  if srv < rn.made.length then some (rn.administer (.added name srv)) else none

/-- `processReq` runs `readEndnameInfo`. -/
def lookup (rn : Network E N α β) (c : Nat) : Option (Network E N α β) := do
  let r ← rn.requests[c]?
  match r.proc with
  | .start =>
    match rn.config.route r.endname with
    | some (name, srv) => return rn.setRequest c { r with
        proc := .admitted ⟨name, srv, rn.reliable, rn.longReordering⟩ }
    | none => return rn.setRequest c { r with proc := .unreachable }
  | _ => none

/-- The time out in the loop of `processReq`. -/
def poll (rn : Network E N α β) (c : Nat) : Option (Network E N α β) := do
  let r ← rn.requests[c]?
  match r.proc with
  | .serving i =>
    if rn.config.isServerDead r.endname i.servername i.server then
      return rn.setRequest c { r with proc := .checking i none, drained := true }
    else return rn
  | _ => none

/-- `processReq` after its loop. -/
def check (rn : Network E N α β) (c : Nat) : Option (Network E N α β) := do
  let r ← rn.requests[c]?
  match r.proc with
  | .checking i reply =>
    match rn.config.isServerDead r.endname i.servername i.server, reply with
    | false, some reply => return rn.setRequest c { r with proc := .deciding i reply }
    | _, _ => return rn.setRequest c { r with proc := .replying .fail }
  | _ => none

variable [Labgob α] [Labgob β] [Inhabited α]

/-- `Call` builds the request. -/
def call (rn : Network E N α β) (e : E) (svcMeth : Bytes) (args : α) :
    Option (Network E N α β) :=
  if e ∈ rn.ends then
    some { rn with
      requests := rn.requests ++
        [⟨e, svcMeth, Labgob.encode args, .sending, .idle, .idle, false⟩]
      hist := rn.hist ++ [.called rn.requests.length e svcMeth args] }
  else none

/-- Both functions `dispatch`: the server counts the request and looks up the service, which looks
up the method, reads the arguments and calls it.  An error in reading the arguments is not looked
at.  Only servers that were made are registered, so the one that stands in for the others is never
called. -/
def dispatch (rn : Network E N α β) (c : Nat) : Option (Network E N α β) := do
  let r ← rn.requests[c]?
  match r.handler with
  | .spawned srv =>
    let rs := rn.made[srv]?.getD makeServer
    let made := rn.made.set srv { rs with count := rs.count + 1 }
    if rs.serves r.svcMeth = true then
      let args := (Labgob.decode r.args).getD default
      return { rn.setRequest c { r with handler := .running srv args } with
        made := made, hist := rn.hist ++ [.ran c srv args] }
    else return { rn with made := made, crashed := true }
  | _ => none

/-- The method returns, and its reply is encoded. -/
def finish (rn : Network E N α β) (c : Nat) (reply : β) : Option (Network E N α β) := do
  let r ← rn.requests[c]?
  match r.handler with
  | .running srv _ =>
    return { rn.setRequest c { r with
        handler := .offering srv ⟨true, Labgob.encode reply⟩ } with
      hist := rn.hist ++ [.finished c reply] }
  | _ => none

/-- The caller receives the answer and decodes it. -/
def receive (rn : Network E N α β) (c : Nat) : Option (Network E N α β) := do
  let r ← rn.requests[c]?
  match r.caller, r.proc with
  | .waiting, .replying rep =>
    if rep.ok = true then
      match Labgob.decode rep.reply with
      | none => return rn.fatal
      | some b => return { rn.setRequest c { r with
            caller := .returned (some b), proc := .done } with
          hist := rn.hist ++ [.returned c (some b)] }
    else return { rn.setRequest c { r with caller := .returned none, proc := .done } with
      hist := rn.hist ++ [.returned c none] }
  | _, _ => none

/-- One action. -/
def step (rn : Network E N α β) (act : Action E N α β) : Option (Network E N α β) :=
  if rn.crashed = true then none else
  match act with
  | .reliable yes => some { rn with reliable := yes }
  | .longReordering yes => some { rn with longReordering := yes }
  | .makeEnd e => some (rn.makeEnd e)
  | .makeServer services =>
    some { rn with made := rn.made ++ [services.foldl Server.addService makeServer] }
  | .addServer name srv => rn.addServer name srv
  | .deleteServer name => some (rn.administer (.deleted name))
  | .connect e name => some (rn.administer (.connected e name))
  | .enable e yes => some (rn.administer (.enabled e yes))
  -- a second `Cleanup` closes a closed channel
  | .cleanup => some (if rn.done then rn.fatal else { rn with done := true })
  | .call e svcMeth args => rn.call e svcMeth args
  | .accept c => rn.accept c
  | .abandon c => rn.abandon c
  | .stop => rn.stop
  | .lookup c => rn.lookup c
  | .expire c => rn.expire c
  | .drop c => rn.drop c
  | .execute c => rn.execute c
  | .dispatch c => rn.dispatch c
  | .finish c reply => rn.finish c reply
  | .take c => rn.take c
  | .poll c => rn.poll c
  | .drain c => rn.drain c
  | .check c => rn.check c
  | .dropReply c => rn.dropReply c
  | .delay c => rn.delay c
  | .reply c => rn.reply c
  | .fire c => rn.fire c
  | .receive c => rn.receive c

/-- The network as a machine. -/
def machine (E N α β : Type) [DecidableEq E] [DecidableEq N] [Labgob α] [Labgob β] [Inhabited α] :
    Machine (Network E N α β) (Action E N α β) :=
  ⟨makeNetwork, step⟩

end Network

end DistLabs.Labrpc
