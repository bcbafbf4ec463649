import DistLabs.KV.Replay

/-!
# Servers over Raft's contract

What holds of the servers, their handlers and the requests in flight, given what has been committed
and called so far.

* A server's maps are the result of the prefix of the log it has applied (`ReplicaInv`).
* A handler is signalled only when its request is in that prefix, whichever copy of it that was
  (`HandlersInv`).
* So an answer that is a result is the result of the call on *some* applied prefix of the log that
  has the request in it (`Answer`): for a `Get` the prefix at the time of reading.

All of this is stable under the growth of the log and of the history (`Grows`).
-/

set_option autoImplicit false

namespace DistLabs.KV

/-! ## The past -/

namespace Past

/-- What has happened by `p` has happened by `p'`. -/
structure Grows (p p' : Past) : Prop where
  /-- Only committed commands are applied. -/
  bound : p.applied ≤ p.log.length
  /-- The log grows at its end. -/
  log : ∃ more, p'.log = p.log ++ more
  /-- More is applied. -/
  applied : p.applied ≤ p'.applied
  /-- More is called. -/
  hist : p.hist ⊆ p'.hist

/-- The operation comes from a call. -/
def Known (p : Past) (op : Op) : Prop := ∃ t, (t, .invoke op.request op.call) ∈ p.hist

/-- `v` is what the call returns on one of the first prefixes of the log, up to index `b`, that have
its request in them. -/
def Answer (p : Past) (b : Nat) (req : Int × Int) (call : Call) (v : Bytes) : Prop :=
  ∃ k ≤ b, req ∈ requests p.log k ∧ v = kvObject.result (replay (p.log.take k)).value call

/-- If a clerk takes the answer for a result, then it is one. -/
def Replies (p : Past) (op : Op) (reply : Reply) : Prop :=
  ∀ v, op.call.result reply = some v → p.Answer p.applied op.request op.call v

/-- Nobody takes `ErrWrongLeader` for a result. -/
theorem replies_wrongLeader (p : Past) (op : Op) : p.Replies op .wrongLeader := by
  intro v hv
  cases hc : op.call <;> rw [hc] at hv <;> simp [Call.result] at hv

variable {p p' : Past}

namespace Grows

theorem refl (h : p.applied ≤ p.log.length) : p.Grows p := ⟨h, ⟨[], by simp⟩, le_rfl, fun _ h ↦ h⟩

variable (hG : p.Grows p')
include hG

theorem take {k : Nat} (hk : k ≤ p.applied) : p'.log.take k = p.log.take k := by
  obtain ⟨more, hmore⟩ := hG.log
  rw [hmore, List.take_append_of_le_length (hk.trans hG.bound)]

theorem requests_eq {k : Nat} (hk : k ≤ p.applied) : requests p'.log k = requests p.log k := by
  rw [requests, hG.take hk, requests]

theorem getElem? {i : Nat} {op : Op} (h : p.log[i]? = some op) : p'.log[i]? = some op := by
  obtain ⟨more, hmore⟩ := hG.log
  rw [hmore, List.getElem?_append_left (List.getElem?_eq_some_iff.mp h).1, h]

theorem known {op : Op} (h : p.Known op) : p'.Known op := h.imp fun _ ht ↦ hG.hist ht

theorem answer {b b' : Nat} (hb : b ≤ p.applied) (hbb : b ≤ b') {req : Int × Int} {call : Call}
    {v : Bytes} (h : p.Answer b req call v) : p'.Answer b' req call v := by
  obtain ⟨k, hk, hreq, hv⟩ := h
  refine ⟨k, hk.trans hbb, ?_, ?_⟩
  · rwa [hG.requests_eq (hk.trans hb)]
  · rwa [hG.take (hk.trans hb)]

theorem replies {op : Op} {reply : Reply} (h : p.Replies op reply) : p'.Replies op reply :=
  fun v hv ↦ hG.answer le_rfl hG.applied (h v hv)

end Grows

end Past

/-! ## Servers -/

section

variable [Labgob Image]

/-- The snapshot of the first `index` commands, which have been applied. -/
def Past.Taken (p : Past) (index : Nat) (data : Bytes) : Prop :=
  index ≤ p.applied ∧ data = Labgob.encode (image (p.log.take index))

/-- The message in hand is the one that comes after the first `k` commands; `cursor` is where Raft
is. -/
def InHand (p : Past) (k cursor : Nat) : Guard → Prop
  | .holding (.command index cmd _) =>
    cursor = index ∧ index = k + 1 ∧ ∃ op, cmd = some op ∧ p.log[k]? = some op
  | .holding (.snapshot index _ data) => cursor = index ∧ k < index ∧ p.Taken index data
  | .receiving | .notifying _ _ | .checking => cursor = k

/-- A server and its place in the log. -/
structure ReplicaInv (p : Past) (rp : Replica) : Prop where
  /-- It has applied a prefix of the log. -/
  image : rp.kv.toImage = image (p.log.take rp.kv.lastApplied)
  /-- And this counts as applied. -/
  le : rp.kv.lastApplied ≤ p.applied
  /-- The message it deals with is the next one. -/
  hand : InHand p rp.kv.lastApplied rp.cursor rp.kv.guard
  /-- The snapshots it has still to hand over. -/
  pending : ∀ x ∈ rp.kv.snapshots, p.Taken x.1 x.2
  /-- The snapshot on its disk. -/
  disk : rp.disk = (0, []) ∨ p.Taken rp.disk.1 rp.disk.2

variable {p p' : Past} {rp rp' : Replica} {kv kv' : KVServer}

theorem Past.Grows.taken (hG : p.Grows p') {index : Nat} {data : Bytes}
    (h : p.Taken index data) : p'.Taken index data :=
  ⟨h.1.trans hG.applied, by rw [hG.take h.1]; exact h.2⟩

theorem InHand.mono (hG : p.Grows p') {k cursor : Nat} {g : Guard} (h : InHand p k cursor g) :
    InHand p' k cursor g := by
  match g with
  | .holding (.command _ _ _) =>
    obtain ⟨h1, h2, op, hop, hget⟩ := h
    exact ⟨h1, h2, op, hop, hG.getElem? hget⟩
  | .holding (.snapshot _ _ _) => exact ⟨h.1, h.2.1, hG.taken h.2.2⟩
  | .receiving | .notifying _ _ | .checking => exact h

omit [Labgob Image] in
theorem image_take {log : List Op} {k : Nat} (hk : k ≤ log.length) :
    image (log.take k) = ⟨replay (log.take k), k⟩ := by
  rw [image, List.length_take_of_le hk]

namespace ReplicaInv

theorem mono (hG : p.Grows p') (h : ReplicaInv p rp) : ReplicaInv p' rp where
  image := by rw [hG.take h.le]; exact h.image
  le := h.le.trans hG.applied
  hand := h.hand.mono hG
  pending x hx := hG.taken (h.pending x hx)
  disk := h.disk.imp id hG.taken

/-- Nothing happens to the maps or to the disk. -/
theorem congr (h : ReplicaInv p rp) (him : rp'.kv.toImage = rp.kv.toImage)
    (hhand : InHand p rp.kv.lastApplied rp'.cursor rp'.kv.guard)
    (hsn : rp'.kv.snapshots ⊆ rp.kv.snapshots) (hdisk : rp'.disk = rp.disk) : ReplicaInv p rp' := by
  have happ := congrArg Image.lastApplied him
  refine ⟨?_, ?_, ?_, fun x hx ↦ h.pending x (hsn hx), hdisk ▸ h.disk⟩
  · rw [him]
    exact h.image
  · rw [happ]
    exact h.le
  · rw [happ]
    exact hhand

/-- **The next command is applied.** -/
theorem command (h : ReplicaInv p rp) (hG : p.Grows p') (hlog : p'.log = p.log) {index : Nat}
    {op : Op} {T : Int} (hg : rp.kv.guard = .holding (.command index (some op) T))
    (hle : index ≤ p'.applied) :
    ReplicaInv p' { rp with kv := rp.kv.applyCommand index op } := by
  have hhand := h.hand
  rw [hg] at hhand
  obtain ⟨hcur, rfl, _, heq, hop⟩ := hhand
  obtain rfl := Option.some_inj.mp heq
  have him := KVServer.applyCommand_toImage rp.kv (rp.kv.lastApplied + 1) op
  have happ := congrArg Image.lastApplied him
  refine ⟨?_, ?_, ?_, ?_, (h.mono hG).disk⟩
  · have hlt := (List.getElem?_eq_some_iff.mp hop).1
    rw [happ, hlog, image_take hlt, take_succ_of_getElem? hop, replay_concat, him]
    exact congrArg (fun s ↦ Image.mk (Store.apply s op) _) (congrArg Image.toStore h.image)
  · rw [happ]
    exact hle
  · rw [happ, KVServer.applyCommand]
    split <;> exact hcur
  · rw [KVServer.applyCommand]
    split <;> exact (h.mono hG).pending

/-- A snapshot is taken over. -/
theorem snapshot (h : ReplicaInv p rp) (hb : p.applied ≤ p.log.length) {index : Nat} {T : Int}
    {data : Bytes} (hg : rp.kv.guard = .holding (.snapshot index T data)) :
    ReplicaInv p { rp with
      kv := { rp.kv.decodeSnapshot data with lastApplied := index, guard := .receiving } } := by
  have hhand := h.hand
  rw [hg] at hhand
  obtain ⟨hcur, -, hle, rfl⟩ := hhand
  rw [KVServer.decodeSnapshot_encode]
  refine ⟨?_, hle, hcur, h.pending, h.disk⟩
  exact (image_take (hle.trans hb)).symm ▸ rfl

/-- The size check. -/
theorem check (h : ReplicaInv p rp) {maxraftstate : Int} {size : Nat}
    (hc : rp.kv.check maxraftstate size = some kv') : ReplicaInv p { rp with kv := kv' } := by
  obtain ⟨hg, hcase⟩ := KVServer.check_spec hc
  have hhand := h.hand
  rw [hg] at hhand
  rcases hcase with rfl | ⟨-, rfl⟩
  · exact ⟨h.image, h.le, hhand, h.pending, h.disk⟩
  · refine ⟨h.image, h.le, hhand, fun x hx ↦ ?_, h.disk⟩
    rcases List.mem_append.mp hx with hold | hnew
    · exact h.pending x hold
    · rw [List.mem_singleton.mp hnew]
      exact ⟨h.le, congrArg Labgob.encode h.image⟩

/-- A server starts from its disk. -/
theorem restart (h : ReplicaInv p rp) (hb : p.applied ≤ p.log.length) :
    ReplicaInv p ⟨.startKVServer rp.disk.2, rp.disk.1, rp.disk⟩ := by
  rcases hd : rp.disk with ⟨index, data⟩
  rw [KVServer.startKVServer]
  rcases hd ▸ h.disk with h0 | ⟨hle, henc⟩
  · obtain ⟨rfl, rfl⟩ := Prod.mk.injEq .. ▸ h0
    rw [KVServer.decodeSnapshot, if_pos rfl]
    exact ⟨rfl, Nat.zero_le _, rfl, by simp, Or.inl rfl⟩
  · dsimp only at hle henc ⊢
    subst henc
    rw [KVServer.decodeSnapshot_encode]
    have him := image_take (hle.trans hb)
    have happ := congrArg Image.lastApplied him
    exact ⟨happ.symm ▸ rfl, happ.le.trans hle, happ.symm, by simp, Or.inr ⟨hle, rfl⟩⟩

/-- **A section of the server itself.** -/
theorem work (h : ReplicaInv p rp) (hG : p.Grows p') (hlog : p'.log = p.log)
    {task : KVServer.Task} (hw : rp.kv.Works task kv') (hle : kv'.lastApplied ≤ p'.applied) :
    ReplicaInv p' { rp with kv := kv' } := by
  have h' := h.mono hG
  cases hw with
  | take | read | timeout | leave => exact h'.congr rfl h'.hand (fun _ hx ↦ hx) rfl
  | notify hg =>
    refine h'.congr rfl ?_ (fun _ hx ↦ hx) rfl
    have hhand := h'.hand
    rw [hg] at hhand
    dsimp only
    split <;> exact hhand
  | @command index op T hg =>
    have him := KVServer.applyCommand_toImage rp.kv index op
    exact h.command hG hlog hg (le_of_eq_of_le (congrArg Image.lastApplied him).symm hle)
  | snapshot hg => exact (h.snapshot hG.bound hg).mono hG

end ReplicaInv

/-- Applying goes forward, within the log. -/
theorem ReplicaInv.forward (h : ReplicaInv p rp) (hb : p.applied ≤ p.log.length)
    {task : KVServer.Task} (hw : rp.kv.Works task kv') :
    rp.kv.lastApplied ≤ kv'.lastApplied ∧ kv'.lastApplied ≤ p.log.length := by
  have hle := h.le
  cases hw with
  | take | read | timeout | leave | notify => exact ⟨le_rfl, hle.trans hb⟩
  | @command index op T hg =>
    have hhand := h.hand
    rw [hg] at hhand
    obtain ⟨-, rfl, _, -, hop⟩ := hhand
    rw [congrArg Image.lastApplied (KVServer.applyCommand_toImage rp.kv _ op)]
    exact ⟨Nat.le_succ _, (List.getElem?_eq_some_iff.mp hop).1⟩
  | snapshot hg =>
    have hhand := h.hand
    rw [hg] at hhand
    exact ⟨hhand.2.1.le, hhand.2.2.1.trans hb⟩

end

/-! ## Handlers -/

/-- The handlers of `l` are still there in `l'`. -/
def Keeps (l l' : List Handler) : Prop :=
  ∀ (h : Nat) (hd : Handler), l[h]? = some hd → ∃ hd', l'[h]? = some hd' ∧ hd'.op = hd.op

theorem Keeps.refl (l : List Handler) : Keeps l l := fun _ hd hh ↦ ⟨hd, hh, rfl⟩

theorem keeps_append (l more : List Handler) : Keeps l (l ++ more) := fun _ hd hh ↦
  ⟨hd, by rw [List.getElem?_append_left (List.getElem?_eq_some_iff.mp hh).1, hh], rfl⟩

theorem keeps_set {l : List Handler} {k : Nat} {hd hd' : Handler} (hh : l[k]? = some hd)
    (hop : hd'.op = hd.op) : Keeps l (l.set k hd') := by
  intro i x hget
  by_cases hik : k = i
  · subst hik
    obtain rfl := Option.some_inj.mp (hh.symm.trans hget)
    exact ⟨_, List.getElem?_set_self (List.getElem?_eq_some_iff.mp hh).1, hop⟩
  · exact ⟨x, by rwa [List.getElem?_set_ne hik], rfl⟩

theorem keeps_modify (l : List Handler) (k : Nat) {f : Handler → Handler}
    (hf : ∀ hd, (f hd).op = hd.op) : Keeps l (l.modify k f) := by
  intro h hd hh
  rw [List.getElem?_modify, hh]
  refine ⟨_, rfl, ?_⟩
  split
  · exact hf hd
  · rfl

/-- A handler on a server that has applied `k` commands. -/
structure HandlerInv (p : Past) (k : Nat) (hd : Handler) : Prop where
  /-- It serves a call. -/
  known : p.Known hd.op
  /-- It is signalled when its request has been applied. -/
  applied : hd.signal = true ∨ hd.stage = .woken → hd.op.request ∈ requests p.log k
  /-- What it answers is right. -/
  reply : ∀ r, hd.stage = .returning r ∨ hd.stage = .returned r → p.Replies hd.op r

/-- The handlers of a server. -/
structure HandlersInv (p : Past) (kv : KVServer) : Prop where
  /-- Each of them. -/
  each : ∀ hd ∈ kv.handlers, HandlerInv p kv.lastApplied hd
  /-- `chanMap` leads from a request to a handler for it. -/
  chan : ∀ req h, kv.chanMap.lookup req = some h →
    ∃ hd, kv.handlers[h]? = some hd ∧ hd.op.request = req
  /-- `guardApply` signals a handler whose request it has applied. -/
  waiter : ∀ h b, kv.guard = .notifying (some h) b →
    ∃ hd, kv.handlers[h]? = some hd ∧ hd.op.request ∈ requests p.log kv.lastApplied

section

variable {p p' : Past} {rp : Replica} {kv kv' : KVServer}

theorem Past.Grows.applied_mono (hG : p.Grows p') {k k' : Nat} (hk : k ≤ p.applied) (hkk : k ≤ k')
    {req : Int × Int} (h : req ∈ requests p.log k) : req ∈ requests p'.log k' :=
  requests_mono hkk (by rwa [hG.requests_eq hk])

theorem HandlerInv.mono (hG : p.Grows p') {k k' : Nat} (hk : k ≤ p.applied) (hkk : k ≤ k')
    {hd : Handler} (h : HandlerInv p k hd) : HandlerInv p' k' hd :=
  ⟨hG.known h.known, fun hs ↦ hG.applied_mono hk hkk (h.applied hs),
    fun r hr ↦ hG.replies (h.reply r hr)⟩

namespace HandlersInv

/-- **What a section has to account for**: the handlers it changes, what it registers, and whom
`guardApply` is to signal. -/
theorem advance (h : HandlersInv p kv) (hG : p.Grows p') (hle : kv.lastApplied ≤ p.applied)
    (hmono : kv.lastApplied ≤ kv'.lastApplied) (hkeep : Keeps kv.handlers kv'.handlers)
    (hnew : ∀ hd ∈ kv'.handlers, hd ∈ kv.handlers ∨ HandlerInv p' kv'.lastApplied hd)
    (hchan : ∀ req h, kv'.chanMap.lookup req = some h → kv.chanMap.lookup req = some h ∨
      ∃ hd, kv'.handlers[h]? = some hd ∧ hd.op.request = req)
    (hwait : ∀ h b, kv'.guard = .notifying (some h) b → kv.guard = .notifying (some h) b ∨
      ∃ hd, kv'.handlers[h]? = some hd ∧ hd.op.request ∈ requests p'.log kv'.lastApplied) :
    HandlersInv p' kv' := by
  refine ⟨fun hd hmem ↦ ?_, fun req k hk ↦ ?_, fun k b hk ↦ ?_⟩
  · exact (hnew hd hmem).elim (fun hold ↦ (h.each hd hold).mono hG hle hmono) id
  · rcases hchan req k hk with hold | hnew'
    · obtain ⟨hd, hget, hreq⟩ := h.chan req k hold
      obtain ⟨hd', hget', hop⟩ := hkeep k hd hget
      exact ⟨hd', hget', hop ▸ hreq⟩
    · exact hnew'
  · rcases hwait k b hk with hold | hnew'
    · obtain ⟨hd, hget, hreq⟩ := h.waiter k b hold
      obtain ⟨hd', hget', hop⟩ := hkeep k hd hget
      exact ⟨hd', hget', hop ▸ hG.applied_mono hle hmono hreq⟩
    · exact hnew'

theorem mono (h : HandlersInv p kv) (hG : p.Grows p') (hle : kv.lastApplied ≤ p.applied) :
    HandlersInv p' kv :=
  h.advance hG hle le_rfl (.refl _) (fun _ hd ↦ Or.inl hd) (fun _ _ hc ↦ Or.inl hc)
    fun _ _ hw ↦ Or.inl hw

/-- A handler moves on to another stage. -/
theorem setStage (h : HandlersInv p kv) (hb : p.applied ≤ p.log.length)
    (hle : kv.lastApplied ≤ p.applied) (k : Nat) (stage : Stage) (hstage : stage ≠ .woken)
    (hreply : ∀ hd, kv.handlers[k]? = some hd → ∀ r, stage = .returning r ∨ stage = .returned r →
      p.Replies hd.op r) : HandlersInv p (kv.setStage k stage) := by
  refine h.advance (.refl hb) hle le_rfl (keeps_modify _ _ fun _ ↦ rfl) (fun hd' hmem ↦ ?_)
    (fun _ _ hc ↦ Or.inl hc) fun _ _ hw ↦ Or.inl hw
  rcases List.mem_modify_cases hmem with hold | ⟨hd, hget, rfl⟩
  · exact Or.inl hold
  · have hhd := h.each hd (List.mem_of_getElem? hget)
    exact Or.inr ⟨hhd.known, fun hs ↦ hhd.applied (hs.imp id fun hw ↦ absurd hw hstage),
      hreply hd hget⟩

/-- A request is delivered. -/
theorem handle (h : HandlersInv p kv) (hb : p.applied ≤ p.log.length)
    (hle : kv.lastApplied ≤ p.applied) {op : Op} (hop : p.Known op) :
    HandlersInv p (kv.handle op) := by
  refine h.advance (.refl hb) hle le_rfl (keeps_append _ _) (fun hd hmem ↦ ?_) (fun req k hk ↦ ?_)
    fun _ _ hw ↦ Or.inl hw
  · rcases List.mem_append.mp hmem with hold | hnew
    · exact Or.inl hold
    · rw [List.mem_singleton.mp hnew]
      exact Or.inr ⟨hop, by simp, by simp⟩
  · change (kv.chanMap.insert op.request kv.handlers.length).lookup req = some k at hk
    by_cases hreq : req = op.request
    · subst hreq
      rw [AList.lookup_insert, Option.some_inj] at hk
      subst hk
      exact Or.inr ⟨⟨op, false, .registered⟩, by simp [KVServer.handle], rfl⟩
    · rw [AList.lookup_insert_ne hreq] at hk
      exact Or.inl hk

/-- The answer of a `PutAppend` that was applied. -/
theorem replies_ok {op : Op} (htype : op.type ≠ .get) {k : Nat} (hk : k ≤ p.applied)
    (hop : op.request ∈ requests p.log k) : p.Replies op (.ok []) := by
  intro v hv
  refine ⟨k, hk, hop, ?_⟩
  rcases op with ⟨type, key, value, c, m⟩
  cases type with
  | get => exact absurd rfl htype
  | put | append => exact (Option.some_inj.mp hv).symm

/-- What a woken `Get` reads is a result. -/
theorem replies_answer [Labgob Image] (hr : ReplicaInv p rp) {op : Op}
    (hop : op.request ∈ requests p.log rp.kv.lastApplied) :
    p.Replies op (rp.kv.answer op.key) := by
  intro v hv
  refine ⟨rp.kv.lastApplied, hr.le, hop, ?_⟩
  have hvalue : (replay (p.log.take rp.kv.lastApplied)).value = rp.kv.value :=
    congrArg (fun im ↦ Store.value (Image.toStore im)) hr.image.symm
  rw [hvalue]
  rcases op with ⟨type, key, value, c, m⟩
  cases type <;> simp only [Op.call, KVServer.answer, Store.value, kvObject] at hv ⊢ <;>
    cases hl : rp.kv.kvMap.lookup key <;> rw [hl] at hv <;> simp_all [Call.result]

/-- A waiting handler takes its signal. -/
theorem take (h : HandlersInv p kv) (hb : p.applied ≤ p.log.length)
    (hle : kv.lastApplied ≤ p.applied) {k : Nat} {hd : Handler} (hh : kv.handlers[k]? = some hd)
    (hsig : hd.signal = true) :
    HandlersInv p { kv with handlers := kv.handlers.set k { hd with
      signal := false
      stage := if hd.op.type = .get then .woken else .returning (.ok []) } } := by
  have hhd := h.each hd (List.mem_of_getElem? hh)
  have hreq := hhd.applied (Or.inl hsig)
  refine h.advance (.refl hb) hle le_rfl (keeps_set hh rfl) (fun hd' hmem ↦ ?_)
    (fun _ _ hc ↦ Or.inl hc) fun _ _ hw ↦ Or.inl hw
  rcases List.mem_or_eq_of_mem_set hmem with hold | rfl
  · exact Or.inl hold
  · refine Or.inr ⟨hhd.known, fun _ ↦ hreq, fun r hr' ↦ ?_⟩
    dsimp only at hr'
    split at hr'
    · simp at hr'
    · next htype =>
      obtain rfl : Reply.ok [] = r := by simpa using hr'
      exact replies_ok htype hle hreq

/-- `chanMap` may only lose requests. -/
theorem erase (h : HandlersInv p kv) (req : Int × Int) :
    HandlersInv p { kv with chanMap := kv.chanMap.erase req } := by
  refine ⟨h.each, fun req' k hk ↦ h.chan req' k ?_, h.waiter⟩
  change (kv.chanMap.erase req).lookup req' = some k at hk
  by_cases hreq : req' = req
  · rw [hreq, AList.lookup_erase] at hk
    simp at hk
  · rwa [AList.lookup_erase_ne hreq] at hk

/-- A command is executed or skipped; its request is applied either way. -/
theorem applyCommand (h : HandlersInv p kv) (hG : p.Grows p') (hle : kv.lastApplied ≤ p.applied)
    {op : Op} (hop : p'.log[kv.lastApplied]? = some op) :
    HandlersInv p' (kv.applyCommand (kv.lastApplied + 1) op) := by
  have hreq : op.request ∈ requests p'.log (kv.lastApplied + 1) := by
    rw [requests, take_succ_of_getElem? hop, List.map_append]
    exact List.mem_append_right _ (List.mem_singleton_self _)
  have happ := congrArg Image.lastApplied (kv.applyCommand_toImage (kv.lastApplied + 1) op)
  obtain ⟨hhandlers, hchan, b, hguard⟩ := kv.applyCommand_handlers (kv.lastApplied + 1) op
  refine h.advance hG hle (happ ▸ Nat.le_succ _) (hhandlers ▸ .refl _)
    (fun hd hmem ↦ Or.inl (hhandlers ▸ hmem)) (fun _ _ hc ↦ Or.inl (hchan ▸ hc))
    fun k b' hk ↦ Or.inr ?_
  rw [hguard, Guard.notifying.injEq] at hk
  obtain ⟨hd, hget, heq⟩ := h.chan _ _ hk.1
  refine ⟨hd, by rw [hhandlers]; exact hget, ?_⟩
  rw [happ, heq]
  exact hreq

/-- `guardApply` signals the handler it looked up. -/
theorem notify (h : HandlersInv p kv) (hb : p.applied ≤ p.log.length)
    (hle : kv.lastApplied ≤ p.applied) {waiter : Option Nat} {checks : Bool}
    (hg : kv.guard = .notifying waiter checks) :
    HandlersInv p { kv with
      handlers := kv.signal waiter
      guard := if checks then .checking else .receiving } := by
  have hguard : ∀ k b, (if checks then Guard.checking else .receiving) ≠
      .notifying (some k) b := fun k b ↦ by
    split <;> simp
  cases waiter with
  | none =>
    exact h.advance (.refl hb) hle le_rfl (.refl _) (fun _ hmem ↦ Or.inl hmem)
      (fun _ _ hc ↦ Or.inl hc) fun k b hk ↦ absurd hk (hguard k b)
  | some i =>
    refine h.advance (.refl hb) hle le_rfl (keeps_modify _ _ fun _ ↦ rfl) (fun hd' hmem ↦ ?_)
      (fun _ _ hc ↦ Or.inl hc) fun k b hk ↦ absurd hk (hguard k b)
    rcases List.mem_modify_cases hmem with hold | ⟨hd, hget, rfl⟩
    · exact Or.inl hold
    · obtain ⟨hd₀, hget₀, hreq⟩ := h.waiter i checks hg
      obtain rfl := Option.some_inj.mp (hget.symm.trans hget₀)
      have hhd := h.each hd (List.mem_of_getElem? hget)
      exact Or.inr ⟨hhd.known, fun _ ↦ hreq, hhd.reply⟩

/-- **A section of the server itself.** -/
theorem work [Labgob Image] (h : HandlersInv p rp.kv) (hr : ReplicaInv p rp) (hG : p.Grows p')
    (hlog : p'.log = p.log) {task : KVServer.Task} (hw : rp.kv.Works task kv') :
    HandlersInv p' kv' := by
  have hb := hG.bound
  have hle := hr.le
  have hfwd := (hr.forward hb hw).1
  cases hw with
  | take hh _ hsig => exact (h.take hb hle hh hsig).mono hG hle
  | @read k hd hh hs =>
    refine HandlersInv.mono (h.setStage hb hle k _ (by simp) fun hd' hget r hr' ↦ ?_) hG hle
    obtain rfl := Option.some_inj.mp (hh.symm.trans hget)
    obtain rfl : rp.kv.answer hd.op.key = r := by simpa using hr'
    exact replies_answer hr ((h.each hd (List.mem_of_getElem? hh)).applied (Or.inr hs))
  | @timeout k hd hh hs =>
    refine HandlersInv.mono (h.setStage hb hle k _ (by simp) fun hd' hget r hr' ↦ ?_) hG hle
    obtain rfl : Reply.wrongLeader = r := by simpa using hr'
    exact p.replies_wrongLeader hd'.op
  | @leave k hd reply hh hs =>
    refine HandlersInv.mono (HandlersInv.erase (h.setStage hb hle k (.returned reply) (by simp)
      fun hd' hget r hr' ↦ ?_) hd.op.request) hG hle
    obtain rfl := Option.some_inj.mp (hh.symm.trans hget)
    obtain rfl : reply = r := by simpa using hr'
    exact (h.each hd (List.mem_of_getElem? hh)).reply reply (Or.inl hs)
  | @snapshot index T data hg =>
    have hkv := KVServer.decodeSnapshot_handlers rp.kv data
    exact h.advance hG hle hfwd (hkv.1 ▸ .refl _) (fun hd hmem ↦ Or.inl (hkv.1 ▸ hmem))
      (fun _ _ hc ↦ Or.inl (hkv.2.1 ▸ hc)) (by simp)
  | @command index op T hg =>
    have hhand := hr.hand
    rw [hg] at hhand
    obtain ⟨-, rfl, _, heq, hop⟩ := hhand
    obtain rfl := Option.some_inj.mp heq
    exact h.applyCommand hG hle (hlog ▸ hop)
  | notify hg => exact (h.notify hb hle hg).mono hG hle

end HandlersInv

/-- A section keeps the handlers. -/
theorem KVServer.Works.keeps [Labgob Image] {task : KVServer.Task} (hw : kv.Works task kv') :
    Keeps kv.handlers kv'.handlers := by
  cases hw with
  | @take k hd hh hs hsig => exact keeps_set hh rfl
  | read | timeout | leave => exact keeps_modify _ _ fun _ ↦ rfl
  | @notify waiter checks hg =>
    cases waiter with
    | none => exact .refl _
    | some k => exact keeps_modify _ _ fun _ ↦ rfl
  | snapshot hg => exact (KVServer.decodeSnapshot_handlers kv _).1 ▸ .refl _
  | command hg => exact (KVServer.applyCommand_handlers kv _ _).1 ▸ .refl _

end

end DistLabs.KV
