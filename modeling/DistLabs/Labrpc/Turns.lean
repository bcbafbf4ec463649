import DistLabs.Labrpc.Network

/-!
# What a step of the network can do

A step changes who is connected to whom, makes a new request, or is a turn of one of the goroutines
of one request (`Turn`).  Nothing else touches the requests or the record.
-/

set_option autoImplicit false

namespace DistLabs.Labrpc

variable {E N α β : Type}

/-- The call that an event is about. -/
def Event.call? : Event E N α β → Option Nat
  | .called c _ _ _ => some c
  | .ran c _ _ => some c
  | .finished c _ => some c
  | .returned c _ => some c
  | _ => none

namespace Network

variable [DecidableEq E] [DecidableEq N] [Labgob α] [Labgob β] [Inhabited α]
  {rn rn' : Network E N α β}

/-- A turn of one of the goroutines of request `c`, and the events it leaves on record. -/
inductive Turn (rn : Network E N α β) (c : Nat) (r : Request E N α β) :
    List (Event E N α β) → Request E N α β → Prop
  | accept (hc : r.caller = .sending) :
      Turn rn c r [] { r with caller := .waiting, proc := .start }
  | abandon (hc : r.caller = .sending) :
      Turn rn c r [.returned c none] { r with caller := .returned none }
  | lookup {name : N} {srv : Nat} (hp : r.proc = .start)
      (hroute : rn.config.route r.endname = some (name, srv)) :
      Turn rn c r []
        { r with proc := .admitted ⟨name, srv, rn.reliable, rn.longReordering⟩ }
  | nowhere (hp : r.proc = .start) : Turn rn c r [] { r with proc := .unreachable }
  | expire (hp : r.proc = .unreachable) : Turn rn c r [] { r with proc := .replying .fail }
  | drop {i : Info N} (hp : r.proc = .admitted i) :
      Turn rn c r [] { r with proc := .replying .fail }
  | execute {i : Info N} (hp : r.proc = .admitted i) :
      Turn rn c r [] { r with proc := .serving i, handler := .spawned i.server }
  | dispatch {srv : Nat} (hh : r.handler = .spawned srv) :
      Turn rn c r [.ran c srv ((Labgob.decode r.args).getD default)]
        { r with handler := .running srv ((Labgob.decode r.args).getD default) }
  | finish {srv : Nat} {args : α} {b : β} (hh : r.handler = .running srv args) :
      Turn rn c r [.finished c b]
        { r with handler := .offering srv ⟨true, Labgob.encode b⟩ }
  | take {i : Info N} {srv : Nat} {reply : ReplyMsg} (hp : r.proc = .serving i)
      (hh : r.handler = .offering srv reply) :
      Turn rn c r [] { r with proc := .checking i (some reply), handler := .done }
  | giveUp {i : Info N} (hp : r.proc = .serving i) :
      Turn rn c r [] { r with proc := .checking i none, drained := true }
  | drain {srv : Nat} {reply : ReplyMsg} (hh : r.handler = .offering srv reply)
      (hd : r.drained = true) : Turn rn c r [] { r with handler := .done }
  | dead {i : Info N} {reply : Option ReplyMsg} (hp : r.proc = .checking i reply) :
      Turn rn c r [] { r with proc := .replying .fail }
  | live {i : Info N} {reply : ReplyMsg} (hp : r.proc = .checking i (some reply))
      (hlive : rn.config.isServerDead r.endname i.servername i.server = false) :
      Turn rn c r [] { r with proc := .deciding i reply }
  | dropReply {i : Info N} {reply : ReplyMsg} (hp : r.proc = .deciding i reply) :
      Turn rn c r [] { r with proc := .replying .fail }
  | delay {i : Info N} {reply : ReplyMsg} (hp : r.proc = .deciding i reply) :
      Turn rn c r [] { r with proc := .delayed reply }
  | reply {i : Info N} {reply : ReplyMsg} (hp : r.proc = .deciding i reply) :
      Turn rn c r [] { r with proc := .replying reply }
  | fire {reply : ReplyMsg} (hp : r.proc = .delayed reply) :
      Turn rn c r [] { r with proc := .replying reply }
  | receive {rep : ReplyMsg} {b : β} (hc : r.caller = .waiting) (hp : r.proc = .replying rep)
      (hok : rep.ok = true) (hb : Labgob.decode rep.reply = some b) :
      Turn rn c r [.returned c (some b)] { r with caller := .returned (some b), proc := .done }
  | fail {rep : ReplyMsg} (hc : r.caller = .waiting) (hp : r.proc = .replying rep) :
      Turn rn c r [.returned c none] { r with caller := .returned none, proc := .done }

/-- Whether requests are taken, whether the network is gone and whether the process has ended. -/
def mode (rn : Network E N α β) : Bool × Bool × Bool := (rn.listening, rn.done, rn.crashed)

/-- The effect of a step. -/
inductive Effect (rn : Network E N α β) : Action E N α β → Network E N α β → Prop
  /-- It changes a setting, or closes the network. -/
  | quiet {act : Action E N α β} {rn' : Network E N α β} (hact : act.routine = false)
      (hreq : rn'.requests = rn.requests) (hhist : rn'.hist = rn.hist)
      (hcfg : rn'.config = rn.config) (hopen : rn'.listening = rn.listening)
      (hdone : rn.done = true → rn'.done = true) : Effect rn act rn'
  /-- It ends the process. -/
  | crash {act : Action E N α β} {rn' : Network E N α β} (hcr : rn'.crashed = true)
      (hreq : rn'.requests = rn.requests) (hhist : rn'.hist = rn.hist)
      (hcfg : rn'.config = rn.config) (hopen : rn'.listening = rn.listening)
      (hdone : rn'.done = rn.done) : Effect rn act rn'
  /-- No more requests are taken. -/
  | stop (hopen : rn.listening = true) (hdone : rn.done = true) :
      Effect rn .stop { rn with listening := false }
  /-- `processReq` finds the server where it was. -/
  | idle {c : Nat} {r : Request E N α β} {i : Info N} (hr : rn.requests[c]? = some r)
      (hp : r.proc = .serving i)
      (hlive : rn.config.isServerDead r.endname i.servername i.server = false) :
      Effect rn (.poll c) rn
  /-- It changes who is connected to whom. -/
  | admin {act : Action E N α β} {rn' : Network E N α β} (ev : Event E N α β)
      (hact : act.routine = false) (hev : ev.call? = none) (hreq : rn'.requests = rn.requests)
      (hhist : rn'.hist = rn.hist ++ [ev]) (hcfg : rn'.config = rn.config.apply ev)
      (hmode : rn'.mode = rn.mode) : Effect rn act rn'
  /-- It is a call. -/
  | call {rn' : Network E N α β} (e : E) (svcMeth : Bytes) (args : α)
      (hreq : rn'.requests = rn.requests ++
        [⟨e, svcMeth, Labgob.encode args, .sending, .idle, .idle, false⟩])
      (hhist : rn'.hist = rn.hist ++ [.called rn.requests.length e svcMeth args])
      (hcfg : rn'.config = rn.config) (hmode : rn'.mode = rn.mode) :
      Effect rn (.call e svcMeth args) rn'
  /-- It is a turn of a request. -/
  | turn {act : Action E N α β} {rn' : Network E N α β} (c : Nat) (r r' : Request E N α β)
      (evs : List (Event E N α β)) (hr : rn.requests[c]? = some r) (ht : Turn rn c r evs r')
      (hreq : rn'.requests = rn.requests.set c r') (hhist : rn'.hist = rn.hist ++ evs)
      (hcfg : rn'.config = rn.config) (hmode : rn'.mode = rn.mode) : Effect rn act rn'

variable {act : Action E N α β}

/-- A step on a request is one on the request that there is. -/
theorem effect_of_bind {c : Nat} {f : Request E N α β → Option (Network E N α β)}
    (h : rn.requests[c]?.bind f = some rn')
    (hf : ∀ r, rn.requests[c]? = some r → f r = some rn' → Effect rn act rn') :
    Effect rn act rn' := by
  obtain ⟨r, hr, hfr⟩ := Option.bind_eq_some_iff.mp h
  exact hf r hr hfr

/-- A turn that leaves nothing on record. -/
theorem Effect.silent {c : Nat} {r r' : Request E N α β} (hr : rn.requests[c]? = some r)
    (ht : Turn rn c r [] r') (hreq : rn'.requests = rn.requests.set c r')
    (hhist : rn'.hist = rn.hist) (hcfg : rn'.config = rn.config) (hmode : rn'.mode = rn.mode) :
    Effect rn act rn' :=
  .turn c r r' [] hr ht hreq (by rw [hhist, List.append_nil]) hcfg hmode

theorem effect_dispatch {c : Nat} (h : rn.dispatch c = some rn') :
    Effect rn (.dispatch c) rn' := by
  refine effect_of_bind h fun r hr hf ↦ ?_
  split at hf
  · next srv hh =>
    dsimp only at hf
    split at hf <;> cases hf
    · exact .turn c r _ _ hr (.dispatch hh) rfl rfl rfl rfl
    · exact .crash rfl rfl rfl rfl rfl rfl
  · cases hf

theorem effect_receive {c : Nat} (h : rn.receive c = some rn') : Effect rn (.receive c) rn' := by
  refine effect_of_bind h fun r hr hf ↦ ?_
  split at hf
  · next rep hc hp =>
    split at hf
    · next hok =>
      split at hf <;> cases hf
      · exact .crash rfl rfl rfl rfl rfl rfl
      · next b hb => exact .turn c r _ _ hr (.receive hc hp hok hb) rfl rfl rfl rfl
    · cases hf
      exact .turn c r _ _ hr (.fail hc hp) rfl rfl rfl rfl
  · cases hf

/-- **What a step can do.** -/
theorem Effect.of_step (h : rn.step act = some rn') : Effect rn act rn' := by
  unfold step at h
  split at h
  · cases h
  cases act with
  | reliable yes => cases h; exact .quiet rfl rfl rfl rfl rfl id
  | longReordering yes => cases h; exact .quiet rfl rfl rfl rfl rfl id
  | makeServer services => cases h; exact .quiet rfl rfl rfl rfl rfl id
  | deleteServer name => cases h; exact .admin (.deleted name) rfl rfl rfl rfl rfl rfl
  | connect e name => cases h; exact .admin (.connected e name) rfl rfl rfl rfl rfl rfl
  | enable e yes => cases h; exact .admin (.enabled e yes) rfl rfl rfl rfl rfl rfl
  | dispatch c => exact effect_dispatch h
  | receive c => exact effect_receive h
  | makeEnd e =>
    rw [Option.some_inj, makeEnd] at h
    split at h <;> cases h
    · exact .crash rfl rfl rfl rfl rfl rfl
    · exact .admin (.made e) rfl rfl rfl rfl rfl rfl
  | addServer name srv =>
    simp only [addServer, Option.ite_none_right_eq_some, Option.some_inj] at h
    obtain ⟨-, rfl⟩ := h
    exact .admin (.added name srv) rfl rfl rfl rfl rfl rfl
  | cleanup =>
    rw [Option.some_inj] at h
    split at h <;> cases h
    · exact .crash rfl rfl rfl rfl rfl rfl
    · exact .quiet rfl rfl rfl rfl rfl fun _ ↦ rfl
  | call e svcMeth args =>
    simp only [Network.call, Option.ite_none_right_eq_some, Option.some_inj] at h
    obtain ⟨-, rfl⟩ := h
    exact .call e svcMeth args rfl rfl rfl rfl
  | stop =>
    simp only [Network.stop, Option.ite_none_right_eq_some, Option.some_inj] at h
    obtain ⟨⟨hopen, hdone⟩, rfl⟩ := h
    exact .stop hopen hdone
  | accept c =>
    refine effect_of_bind h fun r hr hf ↦ ?_
    split at hf
    · next hc =>
      split at hf <;> cases hf
      exact .silent hr (.accept hc) rfl rfl rfl rfl
    · cases hf
  | abandon c =>
    refine effect_of_bind h fun r hr hf ↦ ?_
    split at hf
    · next hc =>
      split at hf <;> cases hf
      exact .turn c r _ _ hr (.abandon hc) rfl rfl rfl rfl
    · cases hf
  | lookup c =>
    refine effect_of_bind h fun r hr hf ↦ ?_
    split at hf
    · next hp =>
      split at hf <;> cases hf
      · next hroute => exact .silent hr (.lookup hp hroute) rfl rfl rfl rfl
      · exact .silent hr (.nowhere hp) rfl rfl rfl rfl
    · cases hf
  | expire c =>
    refine effect_of_bind h fun r hr hf ↦ ?_
    split at hf <;> cases hf
    next hp => exact .silent hr (.expire hp) rfl rfl rfl rfl
  | drop c =>
    refine effect_of_bind h fun r hr hf ↦ ?_
    split at hf
    · next hp =>
      split at hf <;> cases hf
      exact .silent hr (.drop hp) rfl rfl rfl rfl
    · cases hf
  | execute c =>
    refine effect_of_bind h fun r hr hf ↦ ?_
    split at hf <;> cases hf
    next hp => exact .silent hr (.execute hp) rfl rfl rfl rfl
  | finish c b =>
    refine effect_of_bind h fun r hr hf ↦ ?_
    split at hf <;> cases hf
    next hh => exact .turn c r _ _ hr (.finish hh) rfl rfl rfl rfl
  | take c =>
    refine effect_of_bind h fun r hr hf ↦ ?_
    split at hf <;> cases hf
    next hp hh => exact .silent hr (.take hp hh) rfl rfl rfl rfl
  | poll c =>
    refine effect_of_bind h fun r hr hf ↦ ?_
    split at hf
    · next hp =>
      split at hf <;> cases hf
      · exact .silent hr (.giveUp hp) rfl rfl rfl rfl
      · next hlive => exact .idle hr hp (Bool.eq_false_iff.mpr hlive)
    · cases hf
  | drain c =>
    refine effect_of_bind h fun r hr hf ↦ ?_
    split at hf
    · next hh =>
      split at hf <;> cases hf
      next hd => exact .silent hr (.drain hh hd) rfl rfl rfl rfl
    · cases hf
  | check c =>
    refine effect_of_bind h fun r hr hf ↦ ?_
    split at hf
    · next hp =>
      split at hf <;> cases hf
      · next hlive => exact .silent hr (.live hp hlive) rfl rfl rfl rfl
      · exact .silent hr (.dead hp) rfl rfl rfl rfl
    · cases hf
  | dropReply c =>
    refine effect_of_bind h fun r hr hf ↦ ?_
    split at hf
    · next hp =>
      split at hf <;> cases hf
      exact .silent hr (.dropReply hp) rfl rfl rfl rfl
    · cases hf
  | delay c =>
    refine effect_of_bind h fun r hr hf ↦ ?_
    split at hf
    · next hp =>
      split at hf <;> cases hf
      exact .silent hr (.delay hp) rfl rfl rfl rfl
    · cases hf
  | reply c =>
    refine effect_of_bind h fun r hr hf ↦ ?_
    split at hf <;> cases hf
    next hp => exact .silent hr (.reply hp) rfl rfl rfl rfl
  | fire c =>
    refine effect_of_bind h fun r hr hf ↦ ?_
    split at hf <;> cases hf
    next hp => exact .silent hr (.fire hp) rfl rfl rfl rfl

end Network

end DistLabs.Labrpc
