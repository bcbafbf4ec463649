import DistLabs.Labrpc.Turns
import DistLabs.Lib.Lists

/-!
# What a call promises

`labrpc` says of `Call`: it returns true if the server executed the request and the reply is valid,
and false if the network lost the request or the reply or the server is down.

* The method of a call runs at most once, with the arguments of the caller, on a server that the
  end was connected to after the call (`handler_at_most_once`).
* If `Call` returns true then the method ran exactly once and returned the reply, and the server
  was still registered after that (`call_true`).

`Request.Ok` is the invariant behind both: what the position of the goroutines of a call says about
the record.
-/

set_option autoImplicit false

open scoped List

namespace DistLabs.Labrpc

variable {E N α β : Type}

/-- The times the method of a call was started. -/
def runs (c : Nat) (hist : List (Event E N α β)) : List (Event E N α β) :=
  hist.filter fun
    | .ran c' _ _ => c' == c
    | _ => false

theorem mem_runs {c srv : Nat} {a : α} {hist : List (Event E N α β)} :
    .ran c srv a ∈ runs c hist ↔ .ran c srv a ∈ hist := by
  simp [runs]

theorem runs_append (c : Nat) (hist evs : List (Event E N α β)) :
    runs c (hist ++ evs) = runs c hist ++ runs c evs :=
  List.filter_append ..

theorem runs_eq_nil {c : Nat} {evs : List (Event E N α β)}
    (h : ∀ srv a, Event.ran c srv a ∉ evs) : runs c evs = [] := by
  rw [runs, List.filter_eq_nil_iff]
  intro ev hev
  split
  · next c' srv a =>
    simp only [beq_iff_eq]
    rintro rfl
    exact h _ _ hev
  · simp

section Facts

variable [DecidableEq E] [DecidableEq N] {hist evs : List (Event E N α β)} {c : Nat} {e : E}
  {m : Bytes} {a : α} {name : N} {srv : Nat} {b : β}

@[simp] theorem Config.after_append (hist evs : List (Event E N α β)) :
    Config.after (hist ++ evs) = evs.foldl Config.apply (Config.after hist) :=
  List.foldl_append

/-- Since the call, its end was connected to the server once. -/
def Routed (hist : List (Event E N α β)) (c : Nat) (e : E) (m : Bytes) (a : α) (name : N)
    (srv : Nat) : Prop :=
  ∃ pre, pre <+: hist ∧ .called c e m a ∈ pre ∧ (Config.after pre).route e = some (name, srv)

/-- The method of the call has been started, once. -/
structure Ran (hist : List (Event E N α β)) (c : Nat) (e : E) (m : Bytes) (a : α) (srv : Nat) :
    Prop where
  /-- Only once. -/
  once : runs c hist = [.ran c srv a]
  /-- On a server that the end was connected to at some time between. -/
  routed : ∃ name pre suf, hist = pre ++ suf ∧ Routed pre c e m a name srv ∧
    .ran c srv a ∈ suf

/-- The method of the call has returned. -/
def Finished (hist : List (Event E N α β)) (c : Nat) (e : E) (m : Bytes) (a : α) (srv : Nat)
    (b : β) : Prop :=
  Ran hist c e m a srv ∧ [.called c e m a, .ran c srv a, .finished c b] <+ hist

/-- The method had returned when its server was still registered. -/
def Confirmed (hist : List (Event E N α β)) (c : Nat) (e : E) (m : Bytes) (a : α) (b : β) :
    Prop :=
  ∃ name srv pre, pre <+: hist ∧ Routed pre c e m a name srv ∧ Finished pre c e m a srv b ∧
    (Config.after pre).isServerDead e name srv = false

theorem Routed.append (h : Routed hist c e m a name srv) (evs : List (Event E N α β)) :
    Routed (hist ++ evs) c e m a name srv := by
  obtain ⟨pre, hpre, hin, hr⟩ := h
  exact ⟨pre, hpre.trans (List.prefix_append _ _), hin, hr⟩

theorem Ran.append (h : Ran hist c e m a srv) (hevs : ∀ srv a, Event.ran c srv a ∉ evs) :
    Ran (hist ++ evs) c e m a srv := by
  obtain ⟨name, pre, suf, rfl, hr, hran⟩ := h.routed
  refine ⟨by rw [runs_append, h.once, runs_eq_nil hevs, List.append_nil], name, pre, suf ++ evs,
    ?_, hr, ?_⟩
  · rw [List.append_assoc]
  · exact List.mem_append_left _ hran

theorem Finished.append (h : Finished hist c e m a srv b)
    (hevs : ∀ srv a, Event.ran c srv a ∉ evs) : Finished (hist ++ evs) c e m a srv b :=
  ⟨h.1.append hevs, h.2.trans (List.sublist_append_left _ _)⟩

theorem Confirmed.append (h : Confirmed hist c e m a b) (evs : List (Event E N α β)) :
    Confirmed (hist ++ evs) c e m a b := by
  obtain ⟨name, srv, pre, hpre, hlive⟩ := h
  exact ⟨name, srv, pre, hpre.trans (List.prefix_append _ _), hlive⟩

end Facts

/-! ## The goroutines of a call -/

section Invariant

variable [DecidableEq E] [DecidableEq N] [Labgob β]

/-- What the position of the handler says. -/
def Handler.Ok (hist : List (Event E N α β)) (c : Nat) (e : E) (m : Bytes) (a : α) :
    Handler α → Prop
  | .idle => runs c hist = []
  | .spawned srv => runs c hist = [] ∧ ∃ name, Routed hist c e m a name srv
  | .running srv args => args = a ∧ Ran hist c e m a srv ∧
      [.called c e m a, .ran c srv a] <+ hist
  | .offering srv reply => ∃ b, reply = ⟨true, Labgob.encode b⟩ ∧ Finished hist c e m a srv b
  | .done => ∃ srv b, Finished hist c e m a srv b

/-- The server a handler is on, unless it is done. -/
def Handler.on : Handler α → Option Nat
  | .spawned srv => some srv
  | .running srv _ => some srv
  | .offering srv _ => some srv
  | _ => none

/-- A message that `processReq` may send: a failure, or a reply of a server that was there. -/
def ReplyMsg.Ok (hist : List (Event E N α β)) (c : Nat) (e : E) (m : Bytes) (a : α)
    (reply : ReplyMsg) : Prop :=
  reply.ok = true → ∃ b, reply = ⟨true, Labgob.encode b⟩ ∧ Confirmed hist c e m a b

/-- `processReq` has left the loop in which it waits for the handler. -/
def Proc.past : Proc N → Bool
  | .checking _ _ => true
  | .deciding _ _ => true
  | .delayed _ => true
  | .replying _ => true
  | .done => true
  | _ => false

/-- What the position of `processReq` says. -/
def Proc.Ok (hist : List (Event E N α β)) (c : Nat) (e : E) (m : Bytes) (a : α) (h : Handler α) :
    Proc N → Prop
  | .idle => h = .idle
  | .start => h = .idle
  | .unreachable => h = .idle
  | .admitted i => h = .idle ∧ Routed hist c e m a i.servername i.server
  | .serving i => h.on = some i.server ∧ Routed hist c e m a i.servername i.server
  | .checking i (some reply) => Routed hist c e m a i.servername i.server ∧
      ∃ b, reply = ⟨true, Labgob.encode b⟩ ∧ Finished hist c e m a i.server b
  | .checking _ none => True
  | .deciding _ reply => reply.Ok hist c e m a
  | .delayed reply => reply.Ok hist c e m a
  | .replying reply => reply.Ok hist c e m a
  | .done => True

/-- What the position of the caller says. -/
def Caller.Ok (hist : List (Event E N α β)) (c : Nat) (e : E) (m : Bytes) (a : α) (p : Proc N) :
    Caller β → Prop
  | .sending => p = .idle ∧ ∀ o, .returned c o ∉ hist
  | .waiting => p ≠ .idle ∧ p ≠ .done ∧ ∀ o, .returned c o ∉ hist
  | .returned o => (∀ o', .returned c o' ∈ hist → o' = o) ∧ ∀ b, o = some b →
      ∃ pre suf, hist = pre ++ suf ∧ Confirmed pre c e m a b ∧ .returned c (some b) ∈ suf

variable {hist evs : List (Event E N α β)} {c : Nat} {a : α}

theorem ReplyMsg.ok_fail {e : E} {m : Bytes} : ReplyMsg.fail.Ok hist c e m a :=
  fun h ↦ absurd h (by decide)

theorem ReplyMsg.Ok.append {e : E} {m : Bytes} {reply : ReplyMsg} (h : reply.Ok hist c e m a)
    (evs : List (Event E N α β)) : reply.Ok (hist ++ evs) c e m a := by
  intro hok
  obtain ⟨b, hb, hc⟩ := h hok
  exact ⟨b, hb, hc.append evs⟩

theorem Handler.Ok.append {e : E} {m : Bytes} {h : Handler α} (hh : h.Ok hist c e m a)
    (hevs : ∀ srv a, Event.ran c srv a ∉ evs) : h.Ok (hist ++ evs) c e m a := by
  cases h with
  | idle =>
    have hz : runs c hist = [] := hh
    exact (runs_append c hist evs).trans (by rw [hz, runs_eq_nil hevs, List.append_nil])
  | spawned srv =>
    obtain ⟨hz, name, hr⟩ := hh
    exact ⟨by rw [runs_append, hz, runs_eq_nil hevs, List.append_nil], name, hr.append evs⟩
  | running srv args =>
    obtain ⟨hargs, hr, hsub⟩ := hh
    exact ⟨hargs, hr.append hevs, hsub.trans (List.sublist_append_left _ _)⟩
  | offering srv reply =>
    obtain ⟨b, hb, hf⟩ := hh
    exact ⟨b, hb, hf.append hevs⟩
  | done =>
    obtain ⟨srv, b, hf⟩ := hh
    exact ⟨srv, b, hf.append hevs⟩

theorem Proc.Ok.append {e : E} {m : Bytes} {h : Handler α} {p : Proc N}
    (hp : p.Ok hist c e m a h)
    (hevs : (∀ srv a, Event.ran c srv a ∉ evs) ∨ runs c hist = []) :
    p.Ok (hist ++ evs) c e m a h := by
  cases p with
  | idle => exact hp
  | start => exact hp
  | unreachable => exact hp
  | admitted i => exact ⟨hp.1, hp.2.append evs⟩
  | serving i => exact ⟨hp.1, hp.2.append evs⟩
  | checking i reply =>
    cases reply with
    | none => trivial
    | some reply =>
      obtain ⟨hr, b, hb, hf⟩ := hp
      rcases hevs with hevs | hnil
      · exact ⟨hr.append evs, b, hb, hf.append hevs⟩
      · exact absurd (hnil.symm.trans hf.1.once) (by simp)
  | deciding i reply => exact ReplyMsg.Ok.append hp evs
  | delayed reply => exact ReplyMsg.Ok.append hp evs
  | replying reply => exact ReplyMsg.Ok.append hp evs
  | done => trivial

/-- `processReq` looks at the handler only as far as it has to wait for it. -/
theorem Proc.Ok.handler {e : E} {m : Bytes} {h h' : Handler α} {p : Proc N}
    (hp : p.Ok hist c e m a h) (hne : h ≠ .idle) (hon : h'.on = h.on ∨ p.past = true) :
    p.Ok hist c e m a h' := by
  cases p with
  | idle => exact absurd hp hne
  | start => exact absurd hp hne
  | unreachable => exact absurd hp hne
  | admitted i => exact absurd hp.1 hne
  | serving i =>
    rcases hon with hon | hpast
    · exact ⟨hon.trans hp.1, hp.2⟩
    · exact absurd hpast Bool.false_ne_true
  | checking i reply => cases reply <;> exact hp
  | deciding i reply => exact hp
  | delayed reply => exact hp
  | replying reply => exact hp
  | done => trivial

omit [Labgob β] in
/-- The caller does not see `processReq` move until it is done. -/
theorem Caller.Ok.moves {e : E} {m : Bytes} {p p' : Proc N} {q : Caller β}
    (hq : q.Ok hist c e m a p) (hp : p ≠ .idle) (hi : p' ≠ .idle) (hd : p' ≠ .done) :
    q.Ok hist c e m a p' := by
  cases q with
  | sending => exact absurd hq.1 hp
  | waiting => exact ⟨hi, hd, hq.2.2⟩
  | returned o => exact hq

omit [Labgob β] in
theorem Caller.Ok.append {e : E} {m : Bytes} {p : Proc N} {q : Caller β}
    (hq : q.Ok hist c e m a p) (hevs : ∀ o, Event.returned c o ∉ evs) :
    q.Ok (hist ++ evs) c e m a p := by
  have hnot {o : Option β} (h : Event.returned c o ∉ hist) : Event.returned c o ∉ hist ++ evs :=
    fun hm ↦ (List.mem_append.mp hm).elim h (hevs o)
  cases q with
  | sending => exact ⟨hq.1, fun o ↦ hnot (hq.2 o)⟩
  | waiting => exact ⟨hq.1, hq.2.1, fun o ↦ hnot (hq.2.2 o)⟩
  | returned o =>
    refine ⟨fun o' ho' ↦ ?_, fun b hb ↦ ?_⟩
    · rcases List.mem_append.mp ho' with hm | hm
      · exact hq.1 o' hm
      · exact absurd hm (hevs o')
    · obtain ⟨pre, suf, rfl, hc, hret⟩ := hq.2 b hb
      exact ⟨pre, suf ++ evs, List.append_assoc .., hc, List.mem_append_left _ hret⟩

variable [Labgob α]

/-- What the goroutines of a call say about the record. -/
structure Request.Ok (r : Request E N α β) (hist : List (Event E N α β)) (c : Nat) (a : α) :
    Prop where
  /-- The call was made. -/
  called : .called c r.endname r.svcMeth a ∈ hist
  /-- Its arguments are those of the call. -/
  args : r.args = Labgob.encode a
  /-- The handler. -/
  handler : r.handler.Ok hist c r.endname r.svcMeth a
  /-- `processReq`. -/
  proc : r.proc.Ok hist c r.endname r.svcMeth a r.handler
  /-- The goroutine that drains `ech` is started after the loop. -/
  drained : r.drained = true → r.proc.past = true
  /-- The caller. -/
  caller : r.caller.Ok hist c r.endname r.svcMeth a r.proc

/-- The events of other calls do not matter. -/
theorem Request.Ok.append {r : Request E N α β} (h : r.Ok hist c a)
    (hevs : ∀ ev ∈ evs, ev.call? ≠ some c) : r.Ok (hist ++ evs) c a := by
  have hran (srv : Nat) (a' : α) : Event.ran c srv a' ∉ evs := fun hm ↦ hevs _ hm rfl
  have hret (o : Option β) : Event.returned c o ∉ evs := fun hm ↦ hevs _ hm rfl
  exact ⟨List.mem_append_left _ h.called, h.args, h.handler.append hran,
    h.proc.append (Or.inl hran), h.drained, h.caller.append hret⟩

variable [Inhabited α] {rn rn' : Network E N α β}

/-- **A turn of a goroutine keeps what the goroutines of its call say.** -/
theorem Request.Ok.turn {r r' : Request E N α β} (h : r.Ok rn.hist c a)
    (hcfg : rn.config = Config.after rn.hist) (ht : rn.Turn c r evs r') :
    r'.Ok (rn.hist ++ evs) c a := by
  obtain ⟨hcalled, hargs, hh, hp, hd, hq⟩ := h
  have hcalled' : .called c r.endname r.svcMeth a ∈ rn.hist ++ evs :=
    List.mem_append_left _ hcalled
  cases ht with
  | accept hc =>
    rw [List.append_nil]
    rw [hc] at hq
    rw [hq.1] at hp hd
    exact ⟨hcalled, hargs, hh, hp, fun h ↦ absurd (hd h) Bool.false_ne_true, by simp, by simp, hq.2⟩
  | abandon hc =>
    rw [hc] at hq
    refine ⟨hcalled', hargs, hh.append (by simp), hp.append (by simp), hd, ?_, by simp⟩
    intro o ho
    rcases List.mem_append.mp ho with hm | hm
    · exact absurd hm (hq.2 o)
    · simpa using hm
  | lookup hproc hroute =>
    rw [List.append_nil]
    rw [hproc] at hp hd hq
    rw [hcfg] at hroute
    exact ⟨hcalled, hargs, hh, ⟨hp, rn.hist, List.prefix_rfl, hcalled, hroute⟩,
      fun h ↦ absurd (hd h) Bool.false_ne_true, hq.moves (by simp) (by simp) (by simp)⟩
  | nowhere hproc =>
    rw [List.append_nil]
    rw [hproc] at hp hd hq
    exact ⟨hcalled, hargs, hh, hp, fun h ↦ absurd (hd h) Bool.false_ne_true,
      hq.moves (by simp) (by simp) (by simp)⟩
  | expire hproc =>
    rw [List.append_nil]
    rw [hproc] at hq
    exact ⟨hcalled, hargs, hh, ReplyMsg.ok_fail, fun _ ↦ rfl,
      hq.moves (by simp) (by simp) (by simp)⟩
  | drop hproc =>
    rw [List.append_nil]
    rw [hproc] at hq
    exact ⟨hcalled, hargs, hh, ReplyMsg.ok_fail, fun _ ↦ rfl,
      hq.moves (by simp) (by simp) (by simp)⟩
  | execute hproc =>
    rw [List.append_nil]
    rw [hproc] at hp hd hq
    rw [hp.1] at hh
    exact ⟨hcalled, hargs, ⟨hh, _, hp.2⟩, ⟨rfl, hp.2⟩, fun h ↦ absurd (hd h) Bool.false_ne_true,
      hq.moves (by simp) (by simp) (by simp)⟩
  | dispatch hhandler =>
    rw [hhandler] at hh hp
    obtain ⟨hnil, name, hroute⟩ := hh
    have hdec : (Labgob.decode r.args).getD default = a := by
      rw [hargs, Labgob.decode_encode, Option.getD_some]
    rw [hdec] at hcalled' ⊢
    refine ⟨hcalled', hargs, ⟨rfl, ⟨?_, name, rn.hist, _, rfl, hroute, by simp⟩, ?_⟩, ?_, hd,
      hq.append (by simp)⟩
    · rw [runs_append, hnil]
      simp [runs]
    · exact List.Sublist.append (List.singleton_sublist.mpr hcalled) (List.Sublist.refl _)
    · exact (hp.append (Or.inr hnil)).handler (by simp) (Or.inl rfl)
  | @finish srv args b hhandler =>
    rw [hhandler] at hh hp
    obtain ⟨rfl, hran, hsub⟩ := hh
    have hno (srv' : Nat) (a' : α) :
        (.ran c srv' a' : Event E N α β) ∉ [Event.finished c b] := by simp
    exact ⟨hcalled', hargs, ⟨b, rfl, hran.append hno, hsub.append (List.Sublist.refl _)⟩,
      (hp.append (Or.inl hno)).handler (by simp) (Or.inl rfl), hd, hq.append (by simp)⟩
  | take hproc hhandler =>
    rw [List.append_nil]
    rw [hhandler] at hh hp
    rw [hproc] at hp hq
    obtain ⟨b, rfl, hf⟩ := hh
    obtain ⟨hon, hr⟩ := hp
    cases Option.some_inj.mp hon
    exact ⟨hcalled, hargs, ⟨_, b, hf⟩, ⟨hr, b, rfl, hf⟩, fun _ ↦ rfl,
      hq.moves (by simp) (by simp) (by simp)⟩
  | giveUp hproc =>
    rw [List.append_nil]
    rw [hproc] at hq
    exact ⟨hcalled, hargs, hh, trivial, fun _ ↦ rfl, hq.moves (by simp) (by simp) (by simp)⟩
  | drain hhandler hdrained =>
    rw [List.append_nil]
    rw [hhandler] at hh hp
    obtain ⟨b, -, hf⟩ := hh
    exact ⟨hcalled, hargs, ⟨_, b, hf⟩, hp.handler (by simp) (Or.inr (hd hdrained)), hd, hq⟩
  | dead hproc =>
    rw [List.append_nil]
    rw [hproc] at hq
    exact ⟨hcalled, hargs, hh, ReplyMsg.ok_fail, fun _ ↦ rfl,
      hq.moves (by simp) (by simp) (by simp)⟩
  | live hproc hlive =>
    rw [List.append_nil]
    rw [hproc] at hp hq
    rw [hcfg] at hlive
    obtain ⟨hr, b, rfl, hf⟩ := hp
    exact ⟨hcalled, hargs, hh, fun _ ↦ ⟨b, rfl, _, _, rn.hist, List.prefix_rfl, hr, hf, hlive⟩,
      fun _ ↦ rfl, hq.moves (by simp) (by simp) (by simp)⟩
  | dropReply hproc =>
    rw [List.append_nil]
    rw [hproc] at hq
    exact ⟨hcalled, hargs, hh, ReplyMsg.ok_fail, fun _ ↦ rfl,
      hq.moves (by simp) (by simp) (by simp)⟩
  | delay hproc =>
    rw [List.append_nil]
    rw [hproc] at hp hq
    exact ⟨hcalled, hargs, hh, hp, fun _ ↦ rfl, hq.moves (by simp) (by simp) (by simp)⟩
  | reply hproc =>
    rw [List.append_nil]
    rw [hproc] at hp hq
    exact ⟨hcalled, hargs, hh, hp, fun _ ↦ rfl, hq.moves (by simp) (by simp) (by simp)⟩
  | fire hproc =>
    rw [List.append_nil]
    rw [hproc] at hp hq
    exact ⟨hcalled, hargs, hh, hp, fun _ ↦ rfl, hq.moves (by simp) (by simp) (by simp)⟩
  | receive hc hproc hok hb =>
    rw [hproc] at hp
    rw [hc] at hq
    obtain ⟨b, rfl, hconf⟩ := hp hok
    rw [Labgob.decode_encode, Option.some_inj] at hb
    subst hb
    refine ⟨hcalled', hargs, hh.append (by simp), trivial, fun _ ↦ rfl, ?_, ?_⟩
    · intro o ho
      rcases List.mem_append.mp ho with hm | hm
      · exact absurd hm (hq.2.2 o)
      · simpa using hm
    · intro b' hb'
      cases hb'
      exact ⟨rn.hist, _, rfl, hconf, by simp⟩
  | fail hc hproc =>
    rw [hc] at hq
    refine ⟨hcalled', hargs, hh.append (by simp), trivial, fun _ ↦ rfl, ?_, by simp⟩
    intro o ho
    rcases List.mem_append.mp ho with hm | hm
    · exact absurd hm (hq.2.2 o)
    · simpa using hm

/-! ## Runs -/

namespace Network

/-- What holds between any two steps. -/
structure Inv (rn : Network E N α β) : Prop where
  /-- The record says who is connected to whom. -/
  config : rn.config = Config.after rn.hist
  /-- The goroutines of every call agree with the record. -/
  ok : ∀ (c : Nat) (r : Request E N α β), rn.requests[c]? = some r → ∃ a, r.Ok rn.hist c a
  /-- The record is about calls that were made. -/
  known : ∀ ev ∈ rn.hist, ∀ c, ev.call? = some c → c < rn.requests.length
  /-- Requests are taken until the network is gone. -/
  opened : rn.listening = true ∨ rn.done = true

omit [DecidableEq E] [DecidableEq N] in
/-- The events of a turn are about its call. -/
theorem Turn.call?_eq {r r' : Request E N α β} (ht : rn.Turn c r evs r') :
    ∀ ev ∈ evs, ev.call? = some c := by
  cases ht <;> simp [Event.call?]

omit [Inhabited α] in
theorem Inv.init : (makeNetwork : Network E N α β).Inv :=
  ⟨rfl, by simp [makeNetwork], by simp [makeNetwork], Or.inl rfl⟩

omit [Inhabited α] in
theorem Inv.opened_of_mode (h : rn.Inv) (hmode : rn'.mode = rn.mode) :
    rn'.listening = true ∨ rn'.done = true := by
  simp only [mode, Prod.mk.injEq] at hmode
  rw [hmode.1, hmode.2.1]
  exact h.opened

omit [Inhabited α] in
/-- Steps that leave the requests and the record alone. -/
theorem Inv.of_same (h : rn.Inv) (hreq : rn'.requests = rn.requests) (hhist : rn'.hist = rn.hist)
    (hcfg : rn'.config = rn.config) (hopen : rn'.listening = true ∨ rn'.done = true) : rn'.Inv :=
  ⟨by rw [hcfg, hhist]; exact h.config, by rw [hreq, hhist]; exact h.ok,
    by rw [hreq, hhist]; exact h.known, hopen⟩

/-- Every step keeps the invariant. -/
theorem Inv.step {act : Action E N α β} (h : rn.Inv) (hs : Effect rn act rn') : rn'.Inv := by
  cases hs with
  | quiet hact hreq hhist hcfg hopen hdone =>
    exact h.of_same hreq hhist hcfg (h.opened.imp hopen.trans hdone)
  | crash hcr hreq hhist hcfg hopen hdone =>
    exact h.of_same hreq hhist hcfg (h.opened.imp hopen.trans hdone.trans)
  | stop hopen hdone => exact h.of_same rfl rfl rfl (Or.inr hdone)
  | idle => exact h
  | admin ev hact hev hreq hhist hcfg hmode =>
    refine ⟨?_, fun c r hr ↦ ?_, fun ev' hev' c hc ↦ ?_, h.opened_of_mode hmode⟩
    · rw [hcfg, hhist, Config.after_append, ← h.config]
      rfl
    · rw [hreq] at hr
      obtain ⟨a, ha⟩ := h.ok c r hr
      rw [hhist]
      exact ⟨a, ha.append (by simp [hev])⟩
    · rw [hreq]
      rw [hhist] at hev'
      rcases List.mem_append.mp hev' with hm | hm
      · exact h.known ev' hm c hc
      · simp only [List.mem_singleton] at hm
        simp [hm, hev] at hc
  | call e m a hreq hhist hcfg hmode =>
    have hother (c : Nat) (hc : c < rn.requests.length) :
        ∀ ev ∈ [Event.called (N := N) (β := β) rn.requests.length e m a],
          ev.call? ≠ some c := by
      simp only [List.mem_singleton, forall_eq, Event.call?, ne_eq, Option.some_inj]
      omega
    have hnew (ev : Event E N α β) (hev : ev ∈ rn.hist) :
        ev.call? ≠ some rn.requests.length :=
      fun hc ↦ absurd (h.known ev hev _ hc) (by omega)
    refine ⟨?_, fun c r hr ↦ ?_, fun ev' hev' c hc ↦ ?_, h.opened_of_mode hmode⟩
    · rw [hcfg, hhist, Config.after_append, ← h.config]
      rfl
    · rw [hreq] at hr
      rw [hhist]
      rcases List.getElem?_concat_cases hr with hr | ⟨rfl, rfl⟩
      · obtain ⟨a', ha'⟩ := h.ok c r hr
        exact ⟨a', ha'.append (hother c (List.getElem?_eq_some_iff.mp hr).1)⟩
      · refine ⟨a, by simp, rfl, ?_, rfl, by simp, rfl, fun o ho ↦ ?_⟩
        · refine runs_eq_nil fun srv a' hm ↦ ?_
          rcases List.mem_append.mp hm with hm | hm
          · exact hnew _ hm rfl
          · simp at hm
        · rcases List.mem_append.mp ho with hm | hm
          · exact hnew _ hm rfl
          · simp at hm
    · rw [hreq, List.length_append]
      rw [hhist] at hev'
      rcases List.mem_append.mp hev' with hm | hm
      · exact Nat.lt_add_right _ (h.known ev' hm c hc)
      · simp only [List.mem_singleton] at hm
        subst hm
        simp only [Event.call?, Option.some_inj] at hc
        simp [← hc]
  | turn c r r' evs hr ht hreq hhist hcfg hmode =>
    have hlt : c < rn.requests.length := (List.getElem?_eq_some_iff.mp hr).1
    refine ⟨?_, fun c' x hx ↦ ?_, fun ev' hev' c' hc ↦ ?_, h.opened_of_mode hmode⟩
    · rw [hcfg, hhist, Config.after_append, ← h.config]
      cases ht <;> rfl
    · rw [hreq] at hx
      rw [hhist]
      rcases List.getElem?_set_cases hx with ⟨rfl, rfl⟩ | ⟨hne, hx⟩
      · obtain ⟨a, ha⟩ := h.ok c r hr
        exact ⟨a, ha.turn h.config ht⟩
      · obtain ⟨a, ha⟩ := h.ok c' x hx
        refine ⟨a, ha.append fun ev hev ↦ ?_⟩
        rw [ht.call?_eq ev hev]
        simpa using hne
    · rw [hreq, List.length_set]
      rw [hhist] at hev'
      rcases List.mem_append.mp hev' with hm | hm
      · exact h.known ev' hm c' hc
      · rw [ht.call?_eq ev' hm, Option.some_inj] at hc
        exact hc ▸ hlt

theorem inv_of_reach (h : (machine E N α β).Reach (fun _ _ _ ↦ True) rn) : rn.Inv :=
  h.invariant Inv.init fun _ _ _ _ hi hs _ ↦ hi.step (.of_step hs)

omit [Inhabited α] in
/-- The record of a call that has been made. -/
theorem Inv.handler_cases (h : rn.Inv) (c : Nat) :
    runs c rn.hist = [] ∨ ∃ e m a srv, Ran rn.hist c e m a srv := by
  cases hr : rn.requests[c]? with
  | none =>
    refine Or.inl (runs_eq_nil fun srv a hm ↦ ?_)
    have hlt := h.known _ hm c rfl
    rw [List.getElem?_eq_none_iff] at hr
    omega
  | some r =>
    obtain ⟨a, ha⟩ := h.ok c r hr
    have hh := ha.handler
    cases hcase : r.handler with
    | idle =>
      rw [hcase] at hh
      exact Or.inl hh
    | spawned srv =>
      rw [hcase] at hh
      exact Or.inl hh.1
    | running srv args =>
      rw [hcase] at hh
      exact Or.inr ⟨_, _, a, srv, hh.2.1⟩
    | offering srv reply =>
      rw [hcase] at hh
      obtain ⟨b, -, hf⟩ := hh
      exact Or.inr ⟨_, _, a, srv, hf.1⟩
    | done =>
      rw [hcase] at hh
      obtain ⟨srv, b, hf⟩ := hh
      exact Or.inr ⟨_, _, a, srv, hf.1⟩

/-- **The method of a call runs at most once**, with the arguments that were passed to `Call`, and
on the server the end was connected to, and enabled for, at some time since. -/
theorem handler_at_most_once (h : (machine E N α β).Reach (fun _ _ _ ↦ True) rn) (c : Nat) :
    (runs c rn.hist).length ≤ 1 ∧ ∀ srv a, .ran c srv a ∈ rn.hist →
      ∃ e m name pre suf, rn.hist = pre ++ suf ∧ .called c e m a ∈ pre ∧
        (Config.after pre).route e = some (name, srv) ∧ .ran c srv a ∈ suf := by
  rcases (inv_of_reach h).handler_cases c with hnil | ⟨e, m, a, srv, hran⟩
  · refine ⟨by simp [hnil], fun srv a hm ↦ ?_⟩
    rw [← mem_runs, hnil] at hm
    simp at hm
  · refine ⟨by simp [hran.once], fun srv' a' hm ↦ ?_⟩
    rw [← mem_runs, hran.once, List.mem_singleton] at hm
    cases hm
    obtain ⟨name, pre, suf, heq, ⟨pre', ⟨mid, rfl⟩, hcalled, hroute⟩, hin⟩ := hran.routed
    refine ⟨e, m, name, pre', mid ++ suf, ?_, hcalled, hroute, List.mem_append_right _ hin⟩
    rw [heq, List.append_assoc]

/-- A call of method `m` of service `S` from end 0 on the server with the name 7, and its reply. -/
def onePlusOne : List (Action Nat Nat Nat Nat) :=
  [.makeServer [makeService [83] [⟨[109], true, 3, true, 0⟩]], .makeEnd 0, .addServer 7 0,
    .connect 0 7, .enable 0 true, .call 0 [83, 46, 109] 1, .accept 0, .lookup 0, .execute 0,
    .dispatch 0, .finish 0 2, .take 0, .check 0, .reply 0, .receive 0]

theorem handler_at_most_once_onePlusOne :
    ∃ rn : Network Nat Nat Nat Nat, .ran 0 0 1 ∈ rn.hist ∧ (runs 0 rn.hist).length ≤ 1 := by
  obtain ⟨rn, hr, hran⟩ := Machine.exists_reach_of_exec (M := machine Nat Nat Nat Nat)
    (P := fun _ _ _ ↦ True) (Q := fun rn ↦ .ran 0 0 1 ∈ rn.hist) onePlusOne (by decide)
  exact ⟨rn, hran, (handler_at_most_once hr 0).1⟩

/-- **A call that returns true was executed.**  Its method ran exactly once, on a server that the
end was connected to, and returned the reply that the caller got; and after that there was a moment
at which the end was still enabled and the server still registered. -/
theorem call_true (h : (machine E N α β).Reach (fun _ _ _ ↦ True) rn) {b : β}
    (hret : .returned c (some b) ∈ rn.hist) :
    ∃ e m a name srv pre suf, rn.hist = pre ++ suf ∧ runs c rn.hist = [.ran c srv a] ∧
      Routed pre c e m a name srv ∧ [.called c e m a, .ran c srv a, .finished c b] <+ pre ∧
      (Config.after pre).enabled e = true ∧ (Config.after pre).servers name = some srv ∧
      .returned c (some b) ∈ suf := by
  have hi := inv_of_reach h
  obtain ⟨r, hr⟩ : ∃ r, rn.requests[c]? = some r :=
    ⟨_, List.getElem?_eq_getElem (hi.known _ hret c rfl)⟩
  obtain ⟨a, hcalled, -, -, -, -, hq⟩ := hi.ok c r hr
  cases hcase : r.caller with
  | sending =>
    rw [hcase] at hq
    exact absurd hret (hq.2 _)
  | waiting =>
    rw [hcase] at hq
    exact absurd hret (hq.2.2 _)
  | returned o =>
    rw [hcase] at hq
    obtain ⟨pre', suf, heq, ⟨name, srv, pre, ⟨mid, rfl⟩, hroute, hf, hlive⟩, hin⟩ :=
      hq.2 b (hq.1 _ hret).symm
    simp only [Config.isServerDead, Bool.or_eq_false_iff, Bool.not_eq_false',
      decide_eq_false_iff_not, ne_eq, not_not] at hlive
    refine ⟨_, _, a, name, srv, pre, mid ++ suf, ?_, ?_, hroute, hf.2, hlive.1, hlive.2,
      List.mem_append_right _ hin⟩
    · rw [heq, List.append_assoc]
    · -- the one run on record is the one before the reply
      have hmem : .ran c srv a ∈ runs c rn.hist := by
        rw [heq, runs_append, runs_append, hf.1.once]
        simp
      rcases hi.handler_cases c with hnil | ⟨e', m', a', srv', hran⟩
      · simp [hnil] at hmem
      · rw [hran.once, List.mem_singleton] at hmem
        rw [hran.once, hmem]

theorem call_true_onePlusOne :
    ∃ rn : Network Nat Nat Nat Nat, .returned 0 (some 2) ∈ rn.hist ∧
      ∃ srv a, runs 0 rn.hist = [.ran 0 srv a] := by
  obtain ⟨rn, hr, hret⟩ := Machine.exists_reach_of_exec (M := machine Nat Nat Nat Nat)
    (P := fun _ _ _ ↦ True) (Q := fun rn ↦ .returned 0 (some 2) ∈ rn.hist) onePlusOne (by decide)
  obtain ⟨e, m, a, name, srv, pre, suf, -, hruns, -⟩ := call_true hr hret
  exact ⟨rn, hret, srv, a, hruns⟩

end Network

end Invariant

end DistLabs.Labrpc
