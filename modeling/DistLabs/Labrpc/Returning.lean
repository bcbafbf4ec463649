import DistLabs.Labrpc.Delivery
import Mathlib.Algebra.Order.BigOperators.Group.List
import Mathlib.Algebra.Order.Ring.Nat

/-!
# Calls return

`labrpc` says of `Call` that it is guaranteed to return, except if the handler on the side of the
server does not.  That is two facts: the goroutines of the network do a bounded number of steps
(`Network.rank`), looking after a server that is still there apart; and when none of them can do a
step, every call has returned or waits for a handler that is running on a server that is still
there.
-/

set_option autoImplicit false

namespace DistLabs.Labrpc

variable {E N α β : Type}

/-! ## How much is left to do -/

/-- The steps that are left before a request is taken. -/
def Caller.rank : Caller β → Nat
  | .sending => 11
  | _ => 0

/-- The steps that are left to `processReq`, and to the handler it may start. -/
def Proc.rank : Proc N → Nat
  | .idle => 0
  | .start => 10
  | .unreachable => 2
  | .admitted _ => 9
  | .serving _ => 5
  | .checking _ _ => 4
  | .deciding _ _ => 3
  | .delayed _ => 2
  | .replying _ => 1
  | .done => 0

/-- The steps that are left to the goroutine of the handler. -/
def Handler.rank : Handler α → Nat
  | .idle => 0
  | .spawned _ => 3
  | .running _ _ => 2
  | .offering _ _ => 1
  | .done => 0

/-- The steps that are left to the goroutines of a request. -/
def Request.rank (r : Request E N α β) : Nat := r.caller.rank + r.proc.rank + r.handler.rank

namespace Network

/-- The steps that are left to all goroutines, the one that takes requests among them; and the end
of the process. -/
def rank (rn : Network E N α β) : Nat :=
  (rn.requests.map Request.rank).sum + (if rn.listening then 1 else 0) +
    if rn.crashed then 0 else 1

variable [DecidableEq E] [DecidableEq N]

/-- A look after a server that is still there. -/
def idlePoll (rn : Network E N α β) : Action E N α β → Bool
  | .poll c =>
    match rn.requests[c]? with
    | none => false
    | some r =>
      match r.proc with
      | .serving i => !rn.config.isServerDead r.endname i.servername i.server
      | _ => false
  | _ => false

variable [Labgob α] [Labgob β] [Inhabited α] {rn rn' : Network E N α β} {c : Nat} {a : α}

/-- Every turn of a goroutine leaves less to do. -/
theorem Turn.rank_lt {r r' : Request E N α β} {hist evs : List (Event E N α β)}
    (hok : r.Ok hist c a) (ht : rn.Turn c r evs r') : r'.rank < r.rank := by
  have hp := hok.proc
  have hq := hok.caller
  cases ht with
  | accept hc =>
    rw [hc] at hq
    simp only [Request.rank, hc, hq.1, Caller.rank, Proc.rank]
    omega
  | abandon hc =>
    simp only [Request.rank, hc, Caller.rank]
    omega
  | execute hproc =>
    rw [hproc] at hp
    simp [Request.rank, hproc, hp.1, Proc.rank, Handler.rank]
  | dispatch hh => simp [Request.rank, hh, Handler.rank]
  | finish hh => simp [Request.rank, hh, Handler.rank]
  | drain hh => simp [Request.rank, hh, Handler.rank]
  | take hproc hh => simp [Request.rank, hproc, hh, Proc.rank, Handler.rank]
  | receive hc hproc => simp [Request.rank, hc, hproc, Caller.rank, Proc.rank]
  | fail hc hproc => simp [Request.rank, hc, hproc, Caller.rank, Proc.rank]
  | lookup hproc | nowhere hproc | expire hproc | drop hproc | giveUp hproc | dead hproc
  | live hproc | dropReply hproc | delay hproc | reply hproc | fire hproc =>
    simp [Request.rank, hproc, Proc.rank]

omit [Inhabited α] in
/-- A request takes at most eleven steps. -/
theorem rank_le_eleven {r : Request E N α β} {hist : List (Event E N α β)} (hok : r.Ok hist c a) :
    r.rank ≤ 11 := by
  have hp := hok.proc
  have hq := hok.caller
  have hh : r.handler.rank ≤ 3 := by cases r.handler <;> simp [Handler.rank]
  have hproc : r.proc.rank + r.handler.rank ≤ 10 := by
    cases hcase : r.proc with
    | idle | start | unreachable =>
      rw [hcase] at hp
      have hidle : r.handler = .idle := hp
      simp [Proc.rank, hidle, Handler.rank]
    | admitted i =>
      rw [hcase] at hp
      simp [Proc.rank, hp.1, Handler.rank]
    | serving i | checking i reply | deciding i reply | delayed reply | replying reply | done =>
      simp only [Proc.rank]
      omega
  cases hcase : r.caller with
  | sending =>
    rw [hcase] at hq
    rw [hq.1] at hp
    simp [Request.rank, hcase, hq.1, show r.handler = .idle from hp, Caller.rank, Proc.rank,
      Handler.rank]
  | waiting | returned o =>
    simp only [Request.rank, hcase, Caller.rank]
    omega

omit [Inhabited α] in
/-- All goroutines together take at most eleven steps for each request, and two for the one that
takes requests and for the end of the process. -/
theorem Inv.rank_le (hi : rn.Inv) : rn.rank ≤ 11 * rn.requests.length + 2 := by
  have hle : ∀ k ∈ rn.requests.map Request.rank, k ≤ 11 := by
    intro k hk
    obtain ⟨r, hr, rfl⟩ := List.mem_map.mp hk
    obtain ⟨c, hc⟩ := List.mem_iff_getElem?.mp hr
    obtain ⟨a, ha⟩ := hi.ok c r hc
    exact rank_le_eleven ha
  have hsum := List.sum_le_card_nsmul _ 11 hle
  rw [List.length_map, Nat.nsmul_eq_mul, Nat.mul_comm] at hsum
  have hopen : (if rn.listening then 1 else 0) ≤ 1 := by split <;> omega
  have hcr : (if rn.crashed then 0 else 1) ≤ 1 := by split <;> omega
  simp only [rank]
  omega

/-- Every step of a goroutine, except for idle looks after a server, leaves less to do. -/
theorem rank_lt {act : Action E N α β} (hi : rn.Inv) (hcr : rn.crashed = false)
    (hs : Effect rn act rn') (hact : act.routine = true) (hpoll : rn.idlePoll act = false) :
    rn'.rank < rn.rank := by
  cases hs with
  | quiet hno => simp [hno] at hact
  | admin ev hno => simp [hno] at hact
  | call => simp [Action.routine] at hact
  | crash hcr' hreq _ _ hopen => simp [rank, hcr, hcr', hreq, hopen]
  | stop hopen => simp [rank, hopen]
  | idle hr hp hlive => simp [idlePoll, hr, hp, hlive] at hpoll
  | turn c r r' evs hr ht hreq _ _ hmode =>
    obtain ⟨a, ha⟩ := hi.ok c r hr
    have hlt := ht.rank_lt ha
    have hsum := List.sum_map_set Request.rank r' hr
    simp only [mode, Prod.mk.injEq] at hmode
    simp only [rank, hreq, hmode.1, hmode.2.2]
    omega

/-- Where the goroutines of a call are when none of them can go on: the call has returned, or its
handler is running on a server that is still there. -/
def Settled (rn : Network E N α β) (r : Request E N α β) : Prop :=
  (∃ o, r.caller = .returned o) ∨ ∃ i args, r.proc = .serving i ∧
    r.handler = .running i.server args ∧
    rn.config.isServerDead r.endname i.servername i.server = false

/-- A call that has not returned and does not wait for a handler has a goroutine that can go on. -/
theorem Inv.settled_or (hi : rn.Inv) (hcr : rn.crashed = false) {r : Request E N α β}
    (hr : rn.requests[c]? = some r) :
    rn.Settled r ∨ ∃ act, act.routine = true ∧ rn.idlePoll act = false ∧
      (∀ c b, act ≠ .finish c b) ∧ (rn.step act).isSome = true := by
  obtain ⟨a, ha⟩ := hi.ok c r hr
  have hp := ha.proc
  have hq := ha.caller
  cases hcaller : r.caller with
  | returned o => exact Or.inl (Or.inl ⟨o, hcaller⟩)
  | sending =>
    right
    rcases hi.opened with hopen | hdone
    · exact ⟨.accept c, rfl, rfl, by simp, by simp [Network.step, hcr, accept, hr, hcaller, hopen]⟩
    · exact ⟨.abandon c, rfl, rfl, by simp,
        by simp [Network.step, hcr, abandon, hr, hcaller, hdone]⟩
  | waiting =>
    rw [hcaller] at hq
    cases hproc : r.proc with
    | idle => exact absurd hproc hq.1
    | done => exact absurd hproc hq.2.1
    | start =>
      refine Or.inr ⟨.lookup c, rfl, rfl, by simp, ?_⟩
      cases hroute : rn.config.route r.endname <;>
        simp [Network.step, hcr, lookup, hr, hproc, hroute]
    | unreachable =>
      exact Or.inr ⟨.expire c, rfl, rfl, by simp, by simp [Network.step, hcr, expire, hr, hproc]⟩
    | admitted i =>
      exact Or.inr ⟨.execute c, rfl, rfl, by simp, by simp [Network.step, hcr, execute, hr, hproc]⟩
    | checking i reply =>
      refine Or.inr ⟨.check c, rfl, rfl, by simp, ?_⟩
      cases hdead : rn.config.isServerDead r.endname i.servername i.server <;> cases reply <;>
        simp [Network.step, hcr, check, hr, hproc, hdead]
    | deciding i reply =>
      exact Or.inr ⟨.reply c, rfl, rfl, by simp,
        by simp [Network.step, hcr, Network.reply, hr, hproc]⟩
    | delayed reply =>
      exact Or.inr ⟨.fire c, rfl, rfl, by simp, by simp [Network.step, hcr, fire, hr, hproc]⟩
    | replying reply =>
      refine Or.inr ⟨.receive c, rfl, rfl, by simp, ?_⟩
      cases hok : reply.ok <;> cases hdec : (Labgob.decode reply.reply : Option β) <;>
        simp [Network.step, hcr, receive, hr, hproc, hcaller, hok, hdec]
    | serving i =>
      rw [hproc] at hp
      obtain ⟨hon, -⟩ := hp
      cases hh : r.handler with
      | idle => simp [hh, Handler.on] at hon
      | done => simp [hh, Handler.on] at hon
      | spawned srv =>
        refine Or.inr ⟨.dispatch c, rfl, rfl, by simp, ?_⟩
        cases hserves : (rn.made[srv]?.getD makeServer).serves r.svcMeth <;>
          simp [Network.step, hcr, dispatch, hr, hh, hserves]
      | offering srv reply =>
        exact Or.inr ⟨.take c, rfl, rfl, by simp, by simp [Network.step, hcr, take, hr, hproc, hh]⟩
      | running srv args =>
        rw [hh] at hon
        cases Option.some_inj.mp hon
        cases hdead : rn.config.isServerDead r.endname i.servername i.server with
        | false => exact Or.inl (Or.inr ⟨i, args, hproc, hh, hdead⟩)
        | true =>
          exact Or.inr ⟨.poll c, rfl, by simp [idlePoll, hr, hproc, hdead], by simp,
            by simp [Network.step, hcr, poll, hr, hproc, hdead]⟩

/-- **Every call returns**, unless its handler does not.  The goroutines do at most eleven steps for
each call, apart from idle looks after servers; and when the only steps they can do are such looks
and returns of handlers, then every call has returned, or waits for a handler that is running on a
server that is still there. -/
theorem call_returns (h : (machine E N α β).Reach (fun _ _ _ ↦ True) rn) :
    (∀ acts rn', (machine E N α β).exec
        (fun rn act _ ↦ act.routine = true ∧ rn.idlePoll act = false) rn acts = some rn' →
      acts.length ≤ 11 * rn.requests.length + 2) ∧
    (rn.crashed = false →
      (∀ act rn', rn.step act = some rn' → act.routine = true →
        rn.idlePoll act = true ∨ ∃ c b, act = .finish c b) →
      ∀ r ∈ rn.requests, rn.Settled r) := by
  have hi := inv_of_reach h
  constructor
  · intro acts rn' he
    refine (Machine.length_le_of_rank (R := fun rn k ↦ rn.Inv ∧ rn.rank = k) ?_ ⟨hi, rfl⟩ he).trans
      hi.rank_le
    rintro s act s' k ⟨hs, rfl⟩ hstep ⟨hact, hpoll⟩
    have hcr : s.crashed = false := by
      cases hcase : s.crashed with
      | false => rfl
      | true => simp [machine, step, hcase] at hstep
    have heff := Effect.of_step hstep
    exact ⟨s'.rank, rank_lt hs hcr heff hact hpoll, hs.step heff, rfl⟩
  · intro hcr hstuck r hr
    obtain ⟨c, hc⟩ := List.mem_iff_getElem?.mp hr
    refine (hi.settled_or hcr hc).resolve_right ?_
    rintro ⟨act, hact, hpoll, hfin, hsome⟩
    obtain ⟨rn', hstep⟩ := Option.isSome_iff_exists.mp hsome
    rcases hstuck act rn' hstep hact with hidle | ⟨c, b, rfl⟩
    · simp [hpoll] at hidle
    · exact hfin c b rfl

theorem call_returns_onePlusOne :
    ∃ rn : Network Nat Nat Nat Nat, rn.requests.length = 1 ∧
      ∀ acts rn', (machine Nat Nat Nat Nat).exec
        (fun rn act _ ↦ act.routine = true ∧ rn.idlePoll act = false) rn acts = some rn' →
      acts.length ≤ 13 := by
  obtain ⟨rn, hr, hlen⟩ := Machine.exists_reach_of_exec (M := machine Nat Nat Nat Nat)
    (P := fun _ _ _ ↦ True) (Q := fun rn ↦ rn.requests.length = 1) (onePlusOne.take 6) (by decide)
  refine ⟨rn, hlen, fun acts rn' he ↦ ?_⟩
  have := (call_returns hr).1 acts rn' he
  omega

end Network

end DistLabs.Labrpc
