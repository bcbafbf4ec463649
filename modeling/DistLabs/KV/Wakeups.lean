import DistLabs.KV.System

/-!
# Who is woken

`chanMap` is keyed by the request and not by the handler.  A clerk that retries may have two
handlers of one request on the same server, and the deferred `delete(kv.chanMap, key)` of the older
one removes the channel of the newer one.

A `Frontend` is one `KVServer` with the calls of `Get` and `PutAppend` in the order in which they
were made.  A call registers its channel at a moment of its own, so the order of registration may be
another one.  The operations, the answers of `Start` and the messages of `applyCh` are arbitrary.

The handler of the most recent call of a request, registered and not returned, is its `waiter`.  As
long as no older handler of the request touches `chanMap` while there is one (`KeepsNewest`),
`chanMap` leads to it, and whatever `guardApply` processes for the request wakes it.
-/

set_option autoImplicit false

namespace DistLabs.KV

/-- The handler is done. -/
def Stage.isReturned : Stage → Bool
  | .returned _ => true
  | _ => false

/-- A `KVServer` and the calls made on it. -/
structure Frontend where
  /-- The server. -/
  kv : KVServer
  /-- The operations of the calls, oldest call first. -/
  calls : List Op
  /-- The handler of a call that has registered its channel. -/
  handlerOf : Nat → Option Nat

namespace Frontend

/-- What can happen. -/
inductive Action
  /-- `Get` or `PutAppend` is called. -/
  | call (op : Op)
  /-- A call registers its channel. -/
  | register (c : Nat)
  /-- `Start` answers a handler. -/
  | started (h : Nat) (isLeader : Bool)
  /-- The server does something by itself. -/
  | work (task : KVServer.Task)
  /-- `guardApply` receives a message. -/
  | receive (msg : ApplyMsg Op)
  /-- `guardApply` checks the size of the saved state. -/
  | check (size : Nat)
  /-- One of the calls of `Snapshot` is made. -/
  | snapshot (k : Nat)
deriving DecidableEq

section Machine

variable [Labgob Image]

/-- One action. -/
def step (maxraftstate : Int) (s : Frontend) : Action → Option Frontend
  | .call op => some { s with calls := s.calls ++ [op] }
  | .register c => do
    let op ← s.calls[c]?
    if s.handlerOf c = none then
      return { s with
        kv := s.kv.handle op
        handlerOf := Function.update s.handlerOf c (some s.kv.handlers.length) }
    else none
  | .started h isLeader => do
    let kv ← s.kv.started h isLeader
    return { s with kv := kv }
  | .work task => do
    let kv ← s.kv.work task
    return { s with kv := kv }
  | .receive msg => do
    let kv ← s.kv.receive msg
    return { s with kv := kv }
  | .check size => do
    let kv ← s.kv.check maxraftstate size
    return { s with kv := kv }
  | .snapshot k =>
    some { s with kv := { s.kv with snapshots := s.kv.snapshots.eraseIdx k } }

/-- An incarnation of the server that starts from a snapshot. -/
def machine (maxraftstate : Int) (snapshot : Bytes) : Machine Frontend Action :=
  ⟨⟨.startKVServer snapshot, [], fun _ ↦ none⟩, step maxraftstate⟩

end Machine

/-! ## The waiter of a request -/

/-- The most recent call of a request. -/
def newest (s : Frontend) (key : Int × Int) : Option Nat :=
  (s.calls.zipIdx.reverse.find? fun p ↦ p.1.request = key).map Prod.snd

/-- Its handler, if it has registered its channel and not returned. -/
def waiter (s : Frontend) (key : Int × Int) : Option Nat := do
  let c ← s.newest key
  let w ← s.handlerOf c
  let hd ← s.kv.handlers[w]?
  if hd.stage.isReturned then none else some w

/-- `chanMap` is changed under a key only if the request has no waiter, or by the waiter. -/
def KeepsNewest (s : Frontend) : Action → Prop
  | .register c => ∀ op ∈ s.calls[c]?, s.waiter op.request = none
  | .work (.leave h) =>
    ∀ hd ∈ s.kv.handlers[h]?, s.waiter hd.op.request = none ∨ s.waiter hd.op.request = some h
  | _ => True

instance (s : Frontend) : (act : Action) → Decidable (s.KeepsNewest act)
  | .register _ | .work (.leave _) => inferInstanceAs (Decidable (∀ _ ∈ _, _))
  | .work (.take _) | .work (.read _) | .work (.timeout _) | .work .process | .work .notify
  | .call _ | .started _ _ | .receive _ | .check _ | .snapshot _ => isTrue trivial

variable {s s' : Frontend}

/-- A new call is the most recent one of its request. -/
theorem newest_call (s : Frontend) (op : Op) (key : Int × Int) :
    newest { s with calls := s.calls ++ [op] } key =
      if op.request = key then some s.calls.length else s.newest key := by
  simp only [newest, List.zipIdx_append, List.zipIdx_singleton, List.reverse_append,
    List.reverse_singleton, List.singleton_append, List.find?_cons]
  split <;> simp_all

theorem newest_spec {key : Int × Int} {c : Nat} (h : s.newest key = some c) :
    ∃ op, s.calls[c]? = some op ∧ op.request = key := by
  obtain ⟨⟨op, c'⟩, hfind, rfl⟩ := Option.map_eq_some_iff.mp h
  have hmem := List.mem_reverse.mp (List.mem_of_find?_eq_some hfind)
  exact ⟨op, List.mem_zipIdx_iff_getElem?.mp hmem, by simpa using List.find?_some hfind⟩

/-- There is a handler `w`, and it has not returned. -/
def Runs (kv : KVServer) (w : Nat) : Prop :=
  ∃ hd, kv.handlers[w]? = some hd ∧ hd.stage.isReturned = false

theorem waiter_eq_some {key : Int × Int} {w : Nat} : s.waiter key = some w ↔
    ∃ c, s.newest key = some c ∧ s.handlerOf c = some w ∧ Runs s.kv w := by
  simp only [waiter, Runs, Option.bind_eq_bind, Option.bind_eq_some_iff]
  constructor
  · rintro ⟨c, hc, v, hv, hd, hh, h⟩
    split at h
    · simp at h
    · next hr =>
      obtain rfl := Option.some_inj.mp h
      exact ⟨c, hc, hv, hd, hh, by simpa using hr⟩
  · rintro ⟨c, hc, hv, hd, hh, hr⟩
    exact ⟨c, hc, w, hv, hd, hh, by simp [hr]⟩

/-! ## One step -/

variable {kv kv' : KVServer}

theorem runs_setStage {h w : Nat} {hd : Handler} {stage : Stage} (hh : kv.handlers[h]? = some hd)
    (hr : hd.stage.isReturned = false) (hw : Runs (kv.setStage h stage) w) : Runs kv w := by
  obtain ⟨hd', hh', hr'⟩ := hw
  by_cases heq : h = w
  · exact heq ▸ ⟨hd, hh, hr⟩
  · rw [KVServer.setStage, List.getElem?_modify_ne _ _ heq] at hh'
    exact ⟨hd', hh', hr'⟩

/-- A section that leaves `chanMap` alone and revives no handler. -/
structure Quiet (kv kv' : KVServer) : Prop where
  /-- `chanMap` stays. -/
  chanMap : kv'.chanMap = kv.chanMap
  /-- A handler that runs has run before. -/
  runs : ∀ w, Runs kv' w → Runs kv w
  /-- No handler is forgotten. -/
  length_eq : kv'.handlers.length = kv.handlers.length

namespace Quiet

theorem of_eq (hc : kv'.chanMap = kv.chanMap) (hh : kv'.handlers = kv.handlers) : Quiet kv kv' :=
  ⟨hc, fun w hw ↦ by rwa [Runs, ← hh], by rw [hh]⟩

theorem setStage {h : Nat} {hd : Handler} {stage : Stage} (hh : kv.handlers[h]? = some hd)
    (hr : hd.stage.isReturned = false) : Quiet kv (kv.setStage h stage) :=
  ⟨rfl, fun _ ↦ runs_setStage hh hr, by simp [KVServer.setStage]⟩

theorem started {h : Nat} {isLeader : Bool} (hs : kv.started h isLeader = some kv') :
    Quiet kv kv' := by
  obtain ⟨hd, hh, hst, rfl⟩ := KVServer.started_spec hs
  exact setStage hh (by rw [hst]; rfl)

theorem receive {msg : ApplyMsg Op} (hr : kv.receive msg = some kv') : Quiet kv kv' := by
  obtain ⟨-, rfl⟩ := KVServer.receive_spec hr
  exact of_eq rfl rfl

variable [Labgob Image]

theorem check {maxraftstate : Int} {size : Nat} (hc : kv.check maxraftstate size = some kv') :
    Quiet kv kv' := by
  rcases (KVServer.check_spec hc).2 with rfl | ⟨-, rfl⟩
  · exact of_eq rfl rfl
  · exact of_eq rfl rfl

/-- All the server does by itself is quiet, except a handler that returns. -/
theorem works {task : KVServer.Task} (hw : kv.Works task kv') (hl : ∀ h, task ≠ .leave h) :
    Quiet kv kv' := by
  cases hw with
  | @take h hd hh hs hsig =>
    refine ⟨rfl, fun w hw ↦ ?_, by simp⟩
    obtain ⟨hd', hh', hr'⟩ := hw
    by_cases heq : h = w
    · exact heq ▸ ⟨hd, hh, by rw [hs]; rfl⟩
    · exact ⟨hd', by simpa [List.getElem?_set, heq] using hh', hr'⟩
  | read hh hs => exact setStage hh (by rw [hs]; rfl)
  | timeout hh hs => exact setStage hh (by rw [hs]; rfl)
  | @leave h => exact absurd rfl (hl h)
  | @snapshot index T data hg =>
    obtain ⟨hh, hc, -⟩ := kv.decodeSnapshot_handlers data
    exact of_eq hc hh
  | @command index op T hg =>
    obtain ⟨hh, hc, -⟩ := kv.applyCommand_handlers index op
    exact of_eq hc hh
  | @notify waiter checks hg =>
    cases waiter with
    | none => exact of_eq rfl rfl
    | some h =>
      refine ⟨rfl, fun w hw ↦ ?_, by simp [KVServer.signal]⟩
      obtain ⟨hd', hh', hr'⟩ := hw
      simp only [KVServer.signal, List.getElem?_modify, Option.map_eq_map,
        Option.map_eq_some_iff] at hh'
      obtain ⟨hd, hh, rfl⟩ := hh'
      refine ⟨hd, hh, ?_⟩
      split at hr' <;> exact hr'

end Quiet

/-! ## Whole runs -/

/-- The waiter of every request is registered. -/
structure Inv (s : Frontend) : Prop where
  /-- `chanMap` leads to it. -/
  registered : ∀ key w, s.waiter key = some w → s.kv.chanMap.lookup key = some w
  /-- Only calls have handlers, and only such as there are. -/
  handlerOf : ∀ c w, s.handlerOf c = some w → c < s.calls.length ∧ w < s.kv.handlers.length

namespace Inv

theorem quiet (hi : s.Inv) (hq : Quiet s.kv kv') : Inv { s with kv := kv' } := by
  refine ⟨fun key w hw ↦ ?_, fun c w hcw ↦ hq.length_eq ▸ hi.handlerOf c w hcw⟩
  obtain ⟨c, hc, hcw, hr⟩ := waiter_eq_some.mp hw
  rw [hq.chanMap]
  exact hi.registered key w (waiter_eq_some.mpr ⟨c, hc, hcw, hq.runs w hr⟩)

/-- The new call has no handler yet. -/
theorem call (hi : s.Inv) (op : Op) : Inv { s with calls := s.calls ++ [op] } := by
  refine ⟨fun key w hw ↦ ?_, fun c w hcw ↦ ?_⟩
  · obtain ⟨c, hc, hcw, hr⟩ := waiter_eq_some.mp hw
    rw [newest_call] at hc
    split at hc
    · obtain rfl := Option.some_inj.mp hc
      exact absurd (hi.handlerOf _ w hcw).1 (lt_irrefl _)
    · exact hi.registered key w (waiter_eq_some.mpr ⟨c, hc, hcw, hr⟩)
  · have := hi.handlerOf c w hcw
    simp only [List.length_append, List.length_singleton]
    omega

/-- A call that registers is the most recent one, or another call is that has no handler. -/
theorem register (hi : s.Inv) {c : Nat} {op : Op} (hc : s.calls[c]? = some op)
    (hk : s.waiter op.request = none) :
    Inv { s with
      kv := s.kv.handle op
      handlerOf := Function.update s.handlerOf c (some s.kv.handlers.length) } := by
  refine ⟨fun key w hw ↦ ?_, fun c' w hcw ↦ ?_⟩
  · obtain ⟨c', hc', hcw, hd, hh, hr⟩ := waiter_eq_some.mp hw
    change s.newest key = some c' at hc'
    change Function.update s.handlerOf c (some s.kv.handlers.length) c' = some w at hcw
    change (s.kv.chanMap.insert op.request s.kv.handlers.length).lookup key = some w
    by_cases heq : c' = c
    · subst heq
      obtain ⟨op', hop', rfl⟩ := newest_spec hc'
      obtain rfl : op = op' := by simpa [hc] using hop'
      rw [Function.update_self, Option.some_inj] at hcw
      rw [AList.lookup_insert, hcw]
    · rw [Function.update_of_ne heq] at hcw
      have hlt := (hi.handlerOf c' w hcw).2
      replace hh : s.kv.handlers[w]? = some hd := by
        rw [← hh]
        exact (List.getElem?_append_left hlt).symm
      have hold : s.waiter key = some w := waiter_eq_some.mpr ⟨c', hc', hcw, hd, hh, hr⟩
      have hne : key ≠ op.request := by
        rintro rfl
        simp [hk] at hold
      rw [AList.lookup_insert_ne hne]
      exact hi.registered key w hold
  · change Function.update s.handlerOf c (some s.kv.handlers.length) c' = some w at hcw
    simp only [KVServer.handle, List.length_append, List.length_singleton]
    by_cases heq : c' = c
    · subst heq
      rw [Function.update_self, Option.some_inj] at hcw
      exact ⟨(List.getElem?_eq_some_iff.mp hc).1, by omega⟩
    · rw [Function.update_of_ne heq] at hcw
      have := hi.handlerOf c' w hcw
      omega

/-- A handler that returns is the waiter, or there is none. -/
theorem leave (hi : s.Inv) {h : Nat} {hd : Handler} {reply : Reply}
    (hh : s.kv.handlers[h]? = some hd) (hs : hd.stage = .returning reply)
    (hk : s.waiter hd.op.request = none ∨ s.waiter hd.op.request = some h) :
    Inv { s with kv := { s.kv.setStage h (.returned reply) with
      chanMap := s.kv.chanMap.erase hd.op.request } } := by
  refine ⟨fun key w hw ↦ ?_, fun c w hcw ↦ ?_⟩
  · obtain ⟨c, hc, hcw, hr⟩ := waiter_eq_some.mp hw
    replace hr : Runs (s.kv.setStage h (.returned reply)) w := hr
    have hne : w ≠ h := by
      rintro rfl
      obtain ⟨hd', hh', hr'⟩ := hr
      rw [KVServer.setStage, List.getElem?_modify_eq, hh] at hh'
      obtain rfl := Option.some_inj.mp hh'
      simp [Stage.isReturned] at hr'
    have hold : s.waiter key = some w :=
      waiter_eq_some.mpr ⟨c, hc, hcw, runs_setStage hh (by rw [hs]; rfl) hr⟩
    have hkey : key ≠ hd.op.request := by
      rintro rfl
      rcases hk with hk | hk
      · simp [hk] at hold
      · exact hne (Option.some_inj.mp (hold.symm.trans hk))
    change (s.kv.chanMap.erase hd.op.request).lookup key = some w
    rw [AList.lookup_erase_ne hkey]
    exact hi.registered key w hold
  · simpa [KVServer.setStage] using hi.handlerOf c w hcw

variable [Labgob Image] {maxraftstate : Int} {act : Action}

/-- **Every action keeps the waiters registered**, if none is ousted. -/
theorem step (hi : s.Inv) (hs : s.step maxraftstate act = some s') (hk : s.KeepsNewest act) :
    s'.Inv := by
  cases act with
  | call op =>
    obtain rfl := Option.some_inj.mp hs
    exact hi.call op
  | register c =>
    obtain ⟨op, hc, hs⟩ := Option.bind_eq_some_iff.mp hs
    split at hs
    · obtain rfl := Option.some_inj.mp hs
      exact hi.register hc (hk op hc)
    · simp at hs
  | started h isLeader =>
    obtain ⟨kv, hkv, hs⟩ := Option.bind_eq_some_iff.mp hs
    obtain rfl := Option.some_inj.mp hs
    exact hi.quiet (.started hkv)
  | work task =>
    obtain ⟨kv, hkv, hs⟩ := Option.bind_eq_some_iff.mp hs
    obtain rfl := Option.some_inj.mp hs
    have hw := KVServer.Works.of_work hkv
    by_cases hl : ∃ h, task = .leave h
    · obtain ⟨h, rfl⟩ := hl
      cases hw with
      | @leave _ hd reply hh hst => exact hi.leave hh hst (hk hd hh)
    · exact hi.quiet (.works hw fun h heq ↦ hl ⟨h, heq⟩)
  | receive msg =>
    obtain ⟨kv, hkv, hs⟩ := Option.bind_eq_some_iff.mp hs
    obtain rfl := Option.some_inj.mp hs
    exact hi.quiet (.receive hkv)
  | check size =>
    obtain ⟨kv, hkv, hs⟩ := Option.bind_eq_some_iff.mp hs
    obtain rfl := Option.some_inj.mp hs
    exact hi.quiet (.check hkv)
  | snapshot k =>
    obtain rfl := Option.some_inj.mp hs
    exact hi.quiet (.of_eq rfl rfl)

theorem of_reach {snapshot : Bytes}
    (h : (machine maxraftstate snapshot).Reach (fun s act _ ↦ s.KeepsNewest act) s) : s.Inv := by
  refine h.invariant (I := Inv) ⟨fun key w hw ↦ ?_, fun c w hcw ↦ ?_⟩
    fun _ _ _ _ hi hs hk ↦ hi.step hs hk
  · obtain ⟨c, hc, -, -⟩ := waiter_eq_some.mp hw
    simp [machine, newest] at hc
  · simp [machine] at hcw

end Inv

/-! ## The signal -/

section Signal

variable [Labgob Image] {maxraftstate : Int} {act : Action}

/-- Until `guardApply` sends the signal, it is about to send it, and the handler stays. -/
theorem notifying_step {w : Nat} {checks : Bool} (hs : s.step maxraftstate act = some s')
    (hact : act ≠ .work .notify) (hg : s.kv.guard = .notifying (some w) checks)
    (hw : w < s.kv.handlers.length) :
    s'.kv.guard = .notifying (some w) checks ∧ w < s'.kv.handlers.length := by
  cases act with
  | call op =>
    obtain rfl := Option.some_inj.mp hs
    exact ⟨hg, hw⟩
  | register c =>
    obtain ⟨op, hc, hs⟩ := Option.bind_eq_some_iff.mp hs
    split at hs
    · obtain rfl := Option.some_inj.mp hs
      exact ⟨hg, by simp only [KVServer.handle, List.length_append]; omega⟩
    · simp at hs
  | started h isLeader =>
    obtain ⟨kv, hkv, hs⟩ := Option.bind_eq_some_iff.mp hs
    obtain rfl := Option.some_inj.mp hs
    have hlen := (Quiet.started hkv).length_eq
    obtain ⟨hd, hh, hst, rfl⟩ := KVServer.started_spec hkv
    exact ⟨hg, hlen.symm ▸ hw⟩
  | work task =>
    obtain ⟨kv, hkv, hs⟩ := Option.bind_eq_some_iff.mp hs
    obtain rfl := Option.some_inj.mp hs
    cases KVServer.Works.of_work hkv with
    | take | read | timeout | leave => exact ⟨hg, by simpa [KVServer.setStage] using hw⟩
    | snapshot hg' | command hg' => simp [hg] at hg'
    | notify => exact absurd rfl hact
  | receive msg =>
    obtain ⟨kv, hkv, hs⟩ := Option.bind_eq_some_iff.mp hs
    have hg' := (KVServer.receive_spec hkv).1
    simp [hg] at hg'
  | check size =>
    obtain ⟨kv, hkv, hs⟩ := Option.bind_eq_some_iff.mp hs
    have hg' := (KVServer.check_spec hkv).1
    simp [hg] at hg'
  | snapshot k =>
    obtain rfl := Option.some_inj.mp hs
    exact ⟨hg, hw⟩

/-- The send: a channel that is full holds a signal already. -/
theorem notify_signals {w : Nat} {checks : Bool} (hg : s.kv.guard = .notifying (some w) checks)
    (hw : w < s.kv.handlers.length) :
    ∃ s' hd, s.step maxraftstate (.work .notify) = some s' ∧ s'.kv.handlers[w]? = some hd ∧
      hd.signal = true := by
  refine ⟨_, { s.kv.handlers[w] with signal := true },
    by simp only [step, KVServer.work, KVServer.notify, hg]; rfl, ?_, rfl⟩
  simp [KVServer.signal, hw]

/-- **A waiting handler is woken by its own entry.**  In a run in which no older handler of a
request touches `chanMap` while the request has a waiter: when `guardApply` processes a command,
fresh or duplicate, of a request whose most recent handler is registered and has not returned, the
next signal `guardApply` sends goes to that handler's channel, whatever happens until then. -/
theorem waiter_woken {snapshot : Bytes} {t : Frontend} {index w : Nat} {op : Op} {T : Int}
    (h : (machine maxraftstate snapshot).Reach (fun s act _ ↦ s.KeepsNewest act) s)
    (hg : s.kv.guard = .holding (.command index (some op) T)) (hw : s.waiter op.request = some w)
    (hs : s.step maxraftstate (.work .process) = some s')
    (ht : ((machine maxraftstate snapshot).startingAt s').Reach
      (fun _ act _ ↦ act ≠ .work .notify) t) :
    ∃ t' hd, t.step maxraftstate (.work .notify) = some t' ∧ t'.kv.handlers[w]? = some hd ∧
      hd.signal = true := by
  have hreg := (Inv.of_reach h).registered _ w hw
  obtain ⟨-, -, -, hd, hh, -⟩ := waiter_eq_some.mp hw
  have hlen : w < s.kv.handlers.length := (List.getElem?_eq_some_iff.mp hh).1
  obtain ⟨checks, hg', hlen'⟩ : ∃ checks, s'.kv.guard = .notifying (some w) checks ∧
      w < s'.kv.handlers.length := by
    simp only [step, KVServer.work, KVServer.process, hg, Option.bind_eq_bind,
      Option.bind_some] at hs
    obtain rfl := Option.some_inj.mp hs
    obtain ⟨hh, -, checks, hc⟩ := s.kv.applyCommand_handlers index op
    exact ⟨checks, hreg ▸ hc, by rwa [hh]⟩
  obtain ⟨hgt, hlt⟩ := ht.invariant
    (I := fun t ↦ t.kv.guard = .notifying (some w) checks ∧ w < t.kv.handlers.length) ⟨hg', hlen'⟩
    fun _ _ _ _ hi hs hact ↦ notifying_step hs hact hi.1 hi.2
  exact notify_signals hgt hlt

end Signal

/-- `Append("x", "1")`, the first request of clerk `7`. -/
def appendOne : Op := ⟨.append, [120], [49], 7, 1⟩

/-- The clerk's first handler gives up and returns before its second one registers; the entry of the
first comes through then. -/
def retried : List Action :=
  [.call appendOne, .register 0, .started 0 true, .work (.timeout 0), .work (.leave 0),
    .call appendOne, .register 1, .started 1 true, .receive (.command 1 (some appendOne) 1)]

theorem waiter_woken_retried :
    ∃ s s' : Frontend, (machine (-1) []).Reach (fun s act _ ↦ s.KeepsNewest act) s ∧
      s.waiter appendOne.request = some 1 ∧ s.step (-1) (.work .process) = some s' ∧
      ∃ t' hd, s'.step (-1) (.work .notify) = some t' ∧ t'.kv.handlers[1]? = some hd ∧
        hd.signal = true := by
  obtain ⟨s, hs, hg, hw, hp⟩ :=
    Machine.exists_reach_of_exec (M := machine (-1) []) (P := fun s act _ ↦ s.KeepsNewest act)
    (Q := fun s ↦ s.kv.guard = .holding (.command 1 (some appendOne) 1) ∧
      s.waiter appendOne.request = some 1 ∧ (s.step (-1) (.work .process)).isSome)
    retried (by decide +kernel)
  obtain ⟨s', hp⟩ := Option.isSome_iff_exists.mp hp
  exact ⟨s, s', hs, hw, hp, waiter_woken hs hg hw hp .init⟩

/-- The clerk's first handler returns after its second one has registered. -/
def retriedEarly : List Action :=
  [.call appendOne, .register 0, .started 0 true, .call appendOne, .register 1, .started 1 true,
    .work (.timeout 0), .work (.leave 0), .receive (.command 1 (some appendOne) 1)]

/-- **A waiting handler is forgotten**: the first handler has deleted the channel of the second,
which waits for the very entry that `guardApply` processes, and no channel gets a signal. -/
theorem waiter_forgotten :
    ∃ s s' t' : Frontend, (machine (-1) []).Reach (fun _ _ _ ↦ True) s ∧
      s.kv.guard = .holding (.command 1 (some appendOne) 1) ∧
      s.waiter appendOne.request = some 1 ∧
      s.kv.handlers[1]? = some ⟨appendOne, false, .waiting⟩ ∧
      s.step (-1) (.work .process) = some s' ∧ s'.step (-1) (.work .notify) = some t' ∧
      ∀ hd ∈ t'.kv.handlers, hd.signal = false := by
  obtain ⟨s, hs, hg, hw, hh, s', hp, t', ht, hno⟩ :=
    Machine.exists_reach_of_exec (M := machine (-1) []) (P := fun _ _ _ ↦ True)
    (Q := fun s ↦ s.kv.guard = .holding (.command 1 (some appendOne) 1) ∧
      s.waiter appendOne.request = some 1 ∧
      s.kv.handlers[1]? = some ⟨appendOne, false, .waiting⟩ ∧
      ∃ s' ∈ s.step (-1) (.work .process), ∃ t' ∈ s'.step (-1) (.work .notify),
        ∀ hd ∈ t'.kv.handlers, hd.signal = false)
    retriedEarly (by decide +kernel)
  exact ⟨s, s', t', hs, hg, hw, hh, hp, ht, hno⟩

/-! ## The servers of the system

There a call registers its channel at once, so the calls are the handlers. -/

/-- The server of a system, with its handlers as the calls. -/
def ofServer (kv : KVServer) : Frontend :=
  ⟨kv, kv.handlers.map Handler.op, fun c ↦ if c < kv.handlers.length then some c else none⟩

theorem ofServer_of_ops (h : kv'.handlers.map Handler.op = kv.handlers.map Handler.op) :
    ofServer kv' = { ofServer kv with kv := kv' } := by
  have hlen : kv'.handlers.length = kv.handlers.length := by simpa using congrArg List.length h
  rw [ofServer, ofServer, h, hlen]

/-- A change of one handler that leaves its operation alone. -/
theorem ops_modify (handlers : List Handler) (h : Nat) {f : Handler → Handler}
    (hf : ∀ hd, (f hd).op = hd.op) :
    (handlers.modify h f).map Handler.op = handlers.map Handler.op := by
  refine List.ext_getElem? fun i ↦ ?_
  rw [List.getElem?_map, List.getElem?_map, List.getElem?_modify]
  cases handlers[i]? with
  | none => rfl
  | some hd =>
    by_cases heq : h = i
    · simp [heq, hf]
    · simp [heq]

section Connection

variable [Labgob Image] {maxraftstate : Int} {snapshot : Bytes}

theorem ops_works {task : KVServer.Task} (hw : kv.Works task kv') :
    kv'.handlers.map Handler.op = kv.handlers.map Handler.op := by
  cases hw with
  | @take h hd hh =>
    obtain ⟨hlt, rfl⟩ := List.getElem?_eq_some_iff.mp hh
    have hlt' : h < (kv.handlers.map Handler.op).length := by simpa using hlt
    have hself := List.set_getElem_self hlt'
    rw [List.getElem_map] at hself
    rw [List.map_set]
    exact hself
  | read | timeout | leave => exact ops_modify _ _ fun _ ↦ rfl
  | @snapshot index T data => rw [(kv.decodeSnapshot_handlers data).1]
  | @command index op => rw [(kv.applyCommand_handlers index op).1]
  | @notify waiter =>
    cases waiter with
    | none => rfl
    | some h => exact ops_modify _ _ fun _ ↦ rfl

variable (maxraftstate) in
/-- A server that a run of a `Frontend` leads to, with its handlers as the calls. -/
def Served (kv : KVServer) : Prop :=
  ∃ snapshot, (machine maxraftstate snapshot).Reach (fun s act _ ↦ s.KeepsNewest act) (ofServer kv)

namespace Served

theorem startKVServer (snapshot : Bytes) : Served maxraftstate (.startKVServer snapshot) := by
  refine ⟨snapshot, ?_⟩
  have hinit : ofServer (.startKVServer snapshot) = (machine maxraftstate snapshot).init := by
    simp [ofServer, machine, (KVServer.startKVServer_handlers snapshot).1]
  rw [hinit]
  exact .init

theorem step (h : Served maxraftstate kv) (act : Action)
    (hops : kv'.handlers.map Handler.op = kv.handlers.map Handler.op)
    (hs : (ofServer kv).step maxraftstate act = some { ofServer kv with kv := kv' })
    (hk : (ofServer kv).KeepsNewest act) : Served maxraftstate kv' := by
  obtain ⟨snapshot, h⟩ := h
  refine ⟨snapshot, ?_⟩
  rw [ofServer_of_ops hops]
  exact h.step hs hk

/-- A request that registers at once is a call and a registration. -/
theorem handle (h : Served maxraftstate kv) (op : Op) : Served maxraftstate (kv.handle op) := by
  obtain ⟨snapshot, h⟩ := h
  refine ⟨snapshot, ?_⟩
  have hlen : (ofServer kv).calls.length = kv.handlers.length := by simp [ofServer]
  have hlast : ((ofServer kv).calls ++ [op])[kv.handlers.length]? = some op := by simp [← hlen]
  have hnone : (ofServer kv).handlerOf kv.handlers.length = none := by simp [ofServer]
  have hcall : (machine maxraftstate snapshot).step (ofServer kv) (.call op) =
    some { ofServer kv with calls := (ofServer kv).calls ++ [op] } := rfl
  refine (h.step hcall trivial).step (a := Action.register kv.handlers.length) ?_ fun op' hop' ↦ ?_
  · change ((ofServer kv).calls ++ [op])[kv.handlers.length]?.bind _ = _
    rw [hlast, Option.bind_some, if_pos hnone]
    have hupd : Function.update (ofServer kv).handlerOf kv.handlers.length
        (some kv.handlers.length) = (ofServer (kv.handle op)).handlerOf := by
      funext c
      simp only [Function.update_apply, ofServer, KVServer.handle, List.length_append,
        List.length_singleton]
      split
      · simp_all
      · next hne => simp only [show c < kv.handlers.length + 1 ↔ c < kv.handlers.length by omega]
    simp only [ofServer] at hupd
    simp [ofServer, hupd, KVServer.handle]
  · -- the call that registers is the most recent one
    obtain rfl := Option.some_inj.mp (hlast.symm.trans hop')
    by_contra hw
    obtain ⟨w, hw⟩ := Option.ne_none_iff_exists'.mp hw
    obtain ⟨c, hc, hcw, -⟩ := waiter_eq_some.mp hw
    rw [newest_call, if_pos rfl, hlen, Option.some_inj] at hc
    subst hc
    simp [hnone] at hcw

end Served

end Connection

end Frontend

namespace System

variable {n : Nat}

/-- No handler of a server returns while a newer one of its request runs. -/
def KeepsNewest (σ : System n) : Act n → Prop
  | .work a task => (Frontend.ofServer (σ.server a)).KeepsNewest (.work task)
  | _ => True

variable [Labgob (Saved n Op)] [Labgob Image] {maxraftstate : Int} {σ σ' : System n} {act : Act n}

/-- **Every action of the system is one of a `Frontend`'s, or a restart.** -/
theorem Step.served (h : Step maxraftstate σ σ' act) (hk : σ.KeepsNewest act)
    (hi : ∀ a, Frontend.Served maxraftstate (σ.server a)) (a : Fin n) :
    Frontend.Served maxraftstate (σ'.server a) := by
  -- only one server acts
  have hone : ∀ {b : Fin n} {kv : KVServer}, σ'.server = Function.update σ.server b kv →
      Frontend.Served maxraftstate kv → Frontend.Served maxraftstate (σ'.server a) := by
    intro b kv hkv hb
    rw [hkv]
    by_cases heq : a = b
    · rwa [heq, Function.update_self]
    · rw [Function.update_of_ne heq]
      exact hi a
  cases h with
  | raft _ _ hkv => exact hkv ▸ hi a
  | @handle b op _ hkv => exact hone hkv ((hi b).handle op)
  | @start b h hd isLeader kv hh hs _ hkv =>
    obtain ⟨-, -, -, heq⟩ := KVServer.started_spec hs
    exact hone hkv ((hi b).step (.started h isLeader) (heq ▸ Frontend.ops_modify _ _ fun _ ↦ rfl)
      (by simp [Frontend.step, Frontend.ofServer, hs]) trivial)
  | @work b task kv hw _ hkv =>
    exact hone hkv ((hi b).step (.work task) (Frontend.ops_works hw)
      (by simp [Frontend.step, Frontend.ofServer, hw.work_eq]) hk)
  | @receive b msg kv _ hr _ hkv | @receiveSnap b _ msg kv _ hr _ hkv =>
    obtain ⟨-, heq⟩ := KVServer.receive_spec hr
    exact hone hkv ((hi b).step (.receive msg) (by rw [heq])
      (by simp [Frontend.step, Frontend.ofServer, hr]) trivial)
  | @check b size kv hc _ hkv =>
    have hq := (KVServer.check_spec hc).2
    exact hone hkv ((hi b).step (.check size) (by rcases hq with rfl | ⟨-, rfl⟩ <;> rfl)
      (by simp [Frontend.step, Frontend.ofServer, hc]) trivial)
  | @snapshot b k _ _ _ _ hkv =>
    exact hone hkv ((hi b).step (.snapshot k) rfl rfl trivial)
  | restart _ hkv => exact hone hkv (.startKVServer _)

/-- **Every server of the system is a `Frontend` from its last restart on**, so `chanMap` leads to
the waiters there, too. -/
theorem waiter_registered (h : (machine n maxraftstate).Reach (fun σ act _ ↦ σ.KeepsNewest act) σ)
    (a : Fin n) {key : Int × Int} {w : Nat}
    (hw : (Frontend.ofServer (σ.server a)).waiter key = some w) :
    (σ.server a).chanMap.lookup key = some w := by
  have hserved := h.invariant (I := fun σ ↦ ∀ a, Frontend.Served maxraftstate (σ.server a))
    (fun _ ↦ .startKVServer []) fun _ _ _ _ hi hs hk ↦ (Step.of_step hs).served hk hi
  obtain ⟨snapshot, hr⟩ := hserved a
  exact (Frontend.Inv.of_reach hr).registered key w hw

end System

end DistLabs.KV
