import DistLabs.KV.Replicas

/-!
# Clerks and the history of their calls

The invariant of the whole service.  What the history needs is `PastInv`: an entry of the log lies
beyond everything that had been applied when its call was made, since it was started after that, and
a call that has returned was answered from a prefix of the log that has it and had been applied.
This takes what each clerk knows (`ClerkInv`: all its earlier calls are in the log) and what is in
flight (`Flow`).
-/

set_option autoImplicit false

namespace DistLabs.KV

@[simp] theorem Call.op_request (call : Call) (c m : Int) : (call.op c m).request = (c, m) := by
  cases call <;> rfl

@[simp] theorem Call.op_call (call : Call) (c m : Int) : (call.op c m).call = call := by
  cases call <;> rfl

/-! ## The invariant -/

/-- The calls that have returned, with stamp and result. -/
def Past.responses (p : Past) : List (Nat × (Int × Int) × Bytes) :=
  p.hist.filterMap fun
    | (t, .respond i v) => some (t, i, v)
    | (_, .invoke _ _) => none

theorem Past.mem_responses {p : Past} {t : Nat} {i : Int × Int} {v : Bytes} :
    (t, i, v) ∈ p.responses ↔ (t, .respond i v) ∈ p.hist := by
  rw [responses, List.mem_filterMap]
  constructor
  · rintro ⟨⟨t', e⟩, he, heq⟩
    cases e with
    | invoke => simp at heq
    | respond i' v' =>
      obtain ⟨rfl, rfl, rfl⟩ : t' = t ∧ i' = i ∧ v' = v := by simpa using heq
      exact he
  · exact fun h ↦ ⟨_, h, rfl⟩

/-- The log and the history. -/
structure PastInv (p : Past) : Prop where
  /-- Only committed commands are applied. -/
  bound : p.applied ≤ p.log.length
  /-- The log keeps the order of each client's calls. -/
  ordered : Ordered p.log
  /-- The stamps never go back. -/
  sorted : p.hist.Pairwise fun e e' ↦ e.1 ≤ e'.1
  /-- No stamp lies in the future. -/
  stamp : ∀ e ∈ p.hist, e.1 ≤ p.applied
  /-- A call is made once, -/
  unique : ∀ t t' i call call', (t, .invoke i call) ∈ p.hist → (t', .invoke i call') ∈ p.hist →
    t = t' ∧ call = call'
  /-- and returns at most once. -/
  once : (p.responses.map fun x ↦ x.2.1).Nodup
  /-- An entry of the log lies beyond what had been applied when its call was made. -/
  entry : ∀ i op, p.log[i]? = some op → ∃ t ≤ i, (t, .invoke op.request op.call) ∈ p.hist
  /-- A call that has returned was answered from a prefix that had been applied. -/
  response : ∀ t i v, (t, .respond i v) ∈ p.hist →
    ∃ call, (∃ t', (t', .invoke i call) ∈ p.hist) ∧ p.Answer t i call v

/-- A clerk. -/
structure ClerkInv (p : Past) (c : Int) (ck : Clerk) : Prop where
  /-- Numbers are positive. -/
  pos : 0 < ck.seqNum
  /-- Its calls so far. -/
  past : ∀ t m call, (t, .invoke (c, m) call) ∈ p.hist →
    0 < m ∧ (m < ck.seqNum ∨ m = ck.seqNum ∧ ck.call = some call)
  /-- Those that have returned. -/
  responded : ∀ t m v, (t, .respond (c, m) v) ∈ p.hist → m < ck.seqNum
  /-- They are all in the part of the log that has been applied. -/
  done : ∀ m, 0 < m → m < ck.seqNum → helpKey c m ∈ requests p.log p.applied
  /-- The call it is in. -/
  current : ∀ call, ck.call = some call → ∃ t, (t, .invoke (c, ck.seqNum) call) ∈ p.hist

/-- A request. -/
structure RequestInv {n : Nat} (p : Past) (replica : Fin n → Replica) (rq : Request n) : Prop where
  /-- It comes from a call. -/
  known : p.Known rq.op
  /-- Its handler serves it. -/
  running : ∀ h, rq.progress = .running h →
    ∃ hd, (replica rq.server).kv.handlers[h]? = some hd ∧ hd.op = rq.op
  /-- Its answer is right. -/
  answered : ∀ reply, rq.progress = .answered reply → p.Replies rq.op reply

section

variable [Labgob Image] {n : Nat}

/-- The servers, and what is on its way to them and from them. -/
structure Flow (p : Past) (σ : Service n) : Prop where
  /-- The servers. -/
  replica : ∀ a, ReplicaInv p (σ.replica a)
  /-- Their handlers. -/
  handlers : ∀ a, HandlersInv p (σ.replica a).kv
  /-- The requests. -/
  request : ∀ rq ∈ σ.requests, RequestInv p σ.replica rq
  /-- What `Start` has accepted. -/
  pool : ∀ x ∈ σ.pool, p.Known x.1
  /-- The snapshots. -/
  taken : ∀ x ∈ σ.taken, p.Taken x.1 x.2

omit [Labgob Image] in
/-- A clerk waits for a request of the call it is in. -/
def Waits (requests : List (Request n)) (c : Int) (ck : Clerk) : Prop :=
  ∀ r, ck.waiting = some r → ∃ rq call, requests[r]? = some rq ∧ ck.call = some call ∧
    rq.op = call.op c ck.seqNum

/-- Everything. -/
structure ServiceInv (σ : Service n) : Prop where
  /-- The log and the history. -/
  past : PastInv σ.toPast
  /-- The servers and the network. -/
  flow : Flow σ.toPast σ
  /-- The clerks. -/
  clerk : ∀ c, ClerkInv σ.toPast c (σ.clerk c)
  /-- And what they wait for. -/
  waits : ∀ c, Waits σ.requests c (σ.clerk c)

/-! ## Stability -/

variable {p p' : Past} {σ : Service n}

omit [Labgob Image] in
theorem RequestInv.mono (hG : p.Grows p') {replica : Fin n → Replica} {rq : Request n}
    (h : RequestInv p replica rq) : RequestInv p' replica rq :=
  ⟨hG.known h.known, h.running, fun r hr ↦ hG.replies (h.answered r hr)⟩

theorem Flow.mono (hG : p.Grows p') (h : Flow p σ) : Flow p' σ where
  replica a := (h.replica a).mono hG
  handlers a := (h.handlers a).mono hG (h.replica a).le
  request rq hrq := (h.request rq hrq).mono hG
  pool x hx := hG.known (h.pool x hx)
  taken x hx := hG.taken (h.taken x hx)

/-- One server acts, and its handlers stay. -/
theorem Flow.setReplica (h : Flow p σ) {a : Fin n} {rp : Replica} (hr : ReplicaInv p rp)
    (hh : HandlersInv p rp.kv) (hk : Keeps (σ.replica a).kv.handlers rp.kv.handlers) :
    Flow p (σ.setReplica a rp) := by
  have hone : ∀ {P : Replica → Prop}, P rp → (∀ b, P (σ.replica b)) →
      ∀ b, P ((σ.setReplica a rp).replica b) := by
    intro P hP hall b
    change P (Function.update σ.replica a rp b)
    by_cases hb : b = a
    · subst hb; rwa [Function.update_self]
    · rw [Function.update_of_ne hb]; exact hall b
  refine ⟨hone hr h.replica, hone (P := fun rp ↦ HandlersInv p rp.kv) hh h.handlers,
    fun rq hrq ↦ ?_, h.pool, h.taken⟩
  have hold := h.request rq hrq
  refine ⟨hold.known, fun k hp ↦ ?_, hold.answered⟩
  obtain ⟨hd, hget, hop⟩ := hold.running k hp
  change ∃ hd, (Function.update σ.replica a rp rq.server).kv.handlers[k]? = some hd ∧ hd.op = rq.op
  by_cases hb : rq.server = a
  · rw [hb] at hget ⊢
    rw [Function.update_self]
    obtain ⟨hd', hget', hop'⟩ := hk k hd hget
    exact ⟨hd', hget', hop'.trans hop⟩
  · rw [Function.update_of_ne hb]
    exact ⟨hd, hget, hop⟩

omit [Labgob Image] in
/-- A clerk does not see what happens to others. -/
theorem ClerkInv.mono (hG : p.Grows p') {c : Int} {ck : Clerk} (h : ClerkInv p c ck)
    (hhist : ∀ t e, (t, e) ∈ p'.hist → (t, e) ∈ p.hist ∨
      (∀ m call, e ≠ .invoke (c, m) call) ∧ ∀ m v, e ≠ .respond (c, m) v) : ClerkInv p' c ck where
  pos := h.pos
  past t m call he := (hhist _ _ he).elim (h.past t m call) fun hne ↦ absurd rfl (hne.1 m call)
  responded t m v he := (hhist _ _ he).elim (h.responded t m v) fun hne ↦ absurd rfl (hne.2 m v)
  done m h0 hm := hG.applied_mono le_rfl hG.applied (h.done m h0 hm)
  current call hc := (h.current call hc).imp fun _ ht ↦ hG.hist ht

end

/-! ## The log and the history grow -/

namespace PastInv

variable {p : Past}

theorem grows_hist (h : PastInv p) (e : Nat × CallEvent (Int × Int) Call Bytes) :
    p.Grows { p with hist := p.hist ++ [e] } :=
  ⟨h.bound, ⟨[], by simp⟩, le_rfl, fun _ he ↦ List.mem_append_left _ he⟩

theorem grows_applied (h : PastInv p) (k : Nat) :
    p.Grows { p with applied := max p.applied k } :=
  ⟨h.bound, ⟨[], by simp⟩, le_max_left _ _, fun _ he ↦ he⟩

theorem grows_log (h : PastInv p) (op : Op) : p.Grows { p with log := p.log ++ [op] } :=
  ⟨h.bound, ⟨[op], rfl⟩, le_rfl, fun _ he ↦ he⟩

/-- An event with the current stamp. -/
theorem sorted_concat (h : PastInv p) (e : CallEvent (Int × Int) Call Bytes) :
    (p.hist ++ [(p.applied, e)]).Pairwise fun e e' ↦ e.1 ≤ e'.1 := by
  refine List.pairwise_append.mpr ⟨h.sorted, List.pairwise_singleton _ _, fun x hx y hy ↦ ?_⟩
  rw [List.mem_singleton.mp hy]
  exact h.stamp x hx

theorem stamp_concat (h : PastInv p) (e : CallEvent (Int × Int) Call Bytes) :
    ∀ x ∈ p.hist ++ [(p.applied, e)], x.1 ≤ p.applied := by
  intro x hx
  rcases List.mem_append.mp hx with hold | hnew
  · exact h.stamp x hold
  · rw [List.mem_singleton.mp hnew]

/-- A call is made. -/
theorem invoke (h : PastInv p) {i : Int × Int} {call : Call}
    (hnew : ∀ t call', (t, .invoke i call') ∉ p.hist) :
    PastInv { p with hist := p.hist ++ [(p.applied, .invoke i call)] } where
  bound := h.bound
  ordered := h.ordered
  sorted := h.sorted_concat _
  stamp := h.stamp_concat _
  unique t t' j c c' hc hc' := by
    rcases List.mem_append.mp hc with hold | hone <;>
      rcases List.mem_append.mp hc' with hold' | hone'
    · exact h.unique t t' j c c' hold hold'
    · obtain ⟨-, rfl, -⟩ : t' = p.applied ∧ j = i ∧ c' = call := by simpa using hone'
      exact absurd hold (hnew t c)
    · obtain ⟨-, rfl, -⟩ : t = p.applied ∧ j = i ∧ c = call := by simpa using hone
      exact absurd hold' (hnew t' c')
    · obtain ⟨rfl, -, rfl⟩ : t = p.applied ∧ j = i ∧ c = call := by simpa using hone
      obtain ⟨rfl, -, rfl⟩ : t' = p.applied ∧ j = i ∧ c' = c := by simpa using hone'
      exact ⟨rfl, rfl⟩
  once := by
    have hsame : Past.responses { p with hist := p.hist ++ [(p.applied, .invoke i call)] } =
        p.responses := by simp [Past.responses]
    rw [hsame]
    exact h.once
  entry j op hj := by
    obtain ⟨t, ht, he⟩ := h.entry j op hj
    exact ⟨t, ht, List.mem_append_left _ he⟩
  response t j v he := by
    rcases List.mem_append.mp he with hold | hone
    · obtain ⟨c, ⟨t', ht'⟩, hans⟩ := h.response t j v hold
      exact ⟨c, ⟨t', List.mem_append_left _ ht'⟩, hans⟩
    · simp at hone

/-- A call returns. -/
theorem respond (h : PastInv p) {i : Int × Int} {call : Call} {v : Bytes} {t₀ : Nat}
    (hinv : (t₀, .invoke i call) ∈ p.hist) (hans : p.Answer p.applied i call v)
    (hnew : ∀ t v', (t, .respond i v') ∉ p.hist) :
    PastInv { p with hist := p.hist ++ [(p.applied, .respond i v)] } where
  bound := h.bound
  ordered := h.ordered
  sorted := h.sorted_concat _
  stamp := h.stamp_concat _
  unique t t' j c c' hc hc' :=
    h.unique t t' j c c' (by simpa using hc) (by simpa using hc')
  once := by
    have hmore : Past.responses { p with hist := p.hist ++ [(p.applied, .respond i v)] } =
        p.responses ++ [(p.applied, i, v)] := by simp [Past.responses]
    rw [hmore, List.map_append, List.nodup_append]
    refine ⟨h.once, List.nodup_singleton _, fun j hj j' hj' ↦ ?_⟩
    obtain ⟨⟨t, i', v'⟩, hx, rfl⟩ := List.mem_map.mp hj
    rw [List.map_singleton, List.mem_singleton] at hj'
    rintro rfl
    obtain rfl : i' = i := hj'
    exact hnew t v' (Past.mem_responses.mp hx)
  entry j op hj := by
    obtain ⟨t, ht, he⟩ := h.entry j op hj
    exact ⟨t, ht, List.mem_append_left _ he⟩
  response t j v' he := by
    rcases List.mem_append.mp he with hold | hone
    · obtain ⟨c, ⟨t', ht'⟩, hans'⟩ := h.response t j v' hold
      exact ⟨c, ⟨t', List.mem_append_left _ ht'⟩, hans'⟩
    · obtain ⟨rfl, rfl, rfl⟩ : t = p.applied ∧ j = i ∧ v' = v := by simpa using hone
      exact ⟨call, ⟨t₀, List.mem_append_left _ hinv⟩, hans⟩

/-- More of the log is applied. -/
theorem apply (h : PastInv p) {k : Nat} (hk : k ≤ p.log.length) :
    PastInv { p with applied := max p.applied k } :=
  ⟨max_le h.bound hk, h.ordered, h.sorted, fun e he ↦ (h.stamp e he).trans (le_max_left _ _),
    h.unique, h.once, h.entry, h.response⟩

/-- An entry is committed. -/
theorem commit (h : PastInv p) {op : Op} (hop : p.Known op) (hord : Ordered (p.log ++ [op])) :
    PastInv { p with log := p.log ++ [op] } where
  bound := by simpa using h.bound.trans (Nat.le_succ _)
  ordered := hord
  sorted := h.sorted
  stamp := h.stamp
  unique := h.unique
  once := h.once
  entry i op' hi := by
    rcases List.getElem?_concat_cases hi with hold | ⟨rfl, rfl⟩
    · exact h.entry i op' hold
    · obtain ⟨t, ht⟩ := hop
      exact ⟨t, (h.stamp _ ht).trans h.bound, ht⟩
  response t i v he := by
    obtain ⟨call, hinv, hans⟩ := h.response t i v he
    exact ⟨call, hinv, (h.grows_log op).answer (h.stamp _ he) le_rfl hans⟩

end PastInv

/-! ## Every move -/

namespace ServiceInv

variable [Labgob Image] {n : Nat} {σ σ' : Service n}

/-! ### Clerks -/

theorem invoke (h : ServiceInv σ) {c : Int} {call : Call} (hc : (σ.clerk c).call = none) :
    ServiceInv { σ.setClerk c { σ.clerk c with call := some call } with
      hist := σ.hist ++ [(σ.applied, .invoke (c, (σ.clerk c).seqNum) call)] } := by
  have hck := h.clerk c
  have hG := h.past.grows_hist (σ.applied, .invoke (c, (σ.clerk c).seqNum) call)
  have hflow := h.flow.mono hG
  refine ⟨h.past.invoke fun t call' he ↦ ?_, ⟨hflow.replica, hflow.handlers, hflow.request,
    hflow.pool, hflow.taken⟩, (Function.forall_update_iff _ (ClerkInv _)).mpr
    ⟨⟨hck.pos, fun t m call' he ↦ ?_, fun t m v he ↦ ?_, hck.done, fun call' hcall ↦ ?_⟩,
      fun b hb ↦ (h.clerk b).mono hG fun t e he ↦ ?_⟩,
    (Function.forall_update_iff _ (Waits _)).mpr ⟨fun r hr ↦ ?_, fun b _ ↦ h.waits b⟩⟩
  · -- the call that has this number is the one the clerk is in
    obtain ⟨-, hlt | ⟨-, hsome⟩⟩ := hck.past t _ call' he
    · omega
    · rw [hc] at hsome
      simp at hsome
  · rcases List.mem_append.mp he with hold | hnew
    · obtain ⟨h0, hlt | ⟨-, hsome⟩⟩ := hck.past t m call' hold
      · exact ⟨h0, Or.inl hlt⟩
      · rw [hc] at hsome
        simp at hsome
    · obtain ⟨-, rfl, rfl⟩ : t = σ.applied ∧ m = (σ.clerk c).seqNum ∧ call' = call := by
        simpa using hnew
      exact ⟨hck.pos, Or.inr ⟨rfl, rfl⟩⟩
  · exact hck.responded t m v (by simpa using he)
  · obtain rfl := Option.some_inj.mp hcall
    exact ⟨σ.applied, List.mem_append_right _ (List.mem_singleton_self _)⟩
  · rcases List.mem_append.mp he with hold | hnew
    · exact Or.inl hold
    · obtain ⟨-, rfl⟩ : t = σ.applied ∧ e = .invoke (c, (σ.clerk c).seqNum) call := by
        simpa using hnew
      exact Or.inr ⟨by simp [Ne.symm hb], by simp⟩
  · obtain ⟨rq, call', -, hcall, -⟩ := h.waits c r hr
    rw [hc] at hcall
    simp at hcall

theorem send (h : ServiceInv σ) {c : Int} {a : Fin n} {call : Call}
    (hc : (σ.clerk c).call = some call) :
    ServiceInv { σ.setClerk c { σ.clerk c with waiting := some σ.requests.length } with
      requests := σ.requests ++ [⟨a, call.op c (σ.clerk c).seqNum, .sent⟩] } := by
  have hck := h.clerk c
  refine ⟨h.past, ⟨h.flow.replica, h.flow.handlers, fun rq hrq ↦ ?_, h.flow.pool, h.flow.taken⟩,
    (Function.forall_update_iff _ (ClerkInv _)).mpr
      ⟨⟨hck.pos, hck.past, hck.responded, hck.done, hck.current⟩, fun b _ ↦ h.clerk b⟩,
    (Function.forall_update_iff _ (Waits _)).mpr ⟨fun r hr ↦ ?_, fun b _ r hr ↦ ?_⟩⟩
  · rcases List.mem_append.mp hrq with hold | hnew
    · exact h.flow.request rq hold
    · rw [List.mem_singleton.mp hnew]
      refine ⟨?_, by simp, by simp⟩
      rw [Past.Known, Call.op_request, Call.op_call]
      exact hck.current call hc
  · obtain rfl := Option.some_inj.mp hr
    exact ⟨_, call, List.getElem?_concat_length, hc, rfl⟩
  · obtain ⟨rq, call', hget, hcall, hop⟩ := h.waits b r hr
    exact ⟨rq, call', by rw [List.getElem?_append_left (List.getElem?_eq_some_iff.mp hget).1, hget],
      hcall, hop⟩

theorem giveUp (h : ServiceInv σ) (c : Int) :
    ServiceInv (σ.setClerk c { σ.clerk c with waiting := none }) := by
  have hck := h.clerk c
  refine ⟨h.past, ⟨h.flow.replica, h.flow.handlers, h.flow.request, h.flow.pool, h.flow.taken⟩,
    (Function.forall_update_iff _ (ClerkInv _)).mpr
      ⟨⟨hck.pos, hck.past, hck.responded, hck.done, hck.current⟩, fun b _ ↦ h.clerk b⟩,
    (Function.forall_update_iff _ (Waits _)).mpr ⟨fun r hr ↦ ?_, fun b _ ↦ h.waits b⟩⟩
  simp at hr

theorem reply (h : ServiceInv σ) {c : Int} {call : Call} {r : Nat} {rq : Request n}
    {reply : Reply} {v : Bytes} (hc : (σ.clerk c).call = some call)
    (hw : (σ.clerk c).waiting = some r) (hr : σ.requests[r]? = some rq)
    (hp : rq.progress = .answered reply) (hv : call.result reply = some v) :
    ServiceInv { σ.setClerk c ⟨(σ.clerk c).seqNum + 1, none, none⟩ with
      hist := σ.hist ++ [(σ.applied, .respond (c, (σ.clerk c).seqNum) v)] } := by
  have hck := h.clerk c
  -- the answer is to the call the clerk is in
  have hans : σ.Answer σ.applied (c, (σ.clerk c).seqNum) call v := by
    obtain ⟨rq', call', hr', hc', hop⟩ := h.waits c r hw
    obtain rfl := Option.some_inj.mp (hr.symm.trans hr')
    obtain rfl := Option.some_inj.mp (hc.symm.trans hc')
    have := (h.flow.request rq (List.mem_of_getElem? hr)).answered reply hp v
    rw [hop, Call.op_request, Call.op_call] at this
    exact this hv
  obtain ⟨t₀, ht₀⟩ := hck.current call hc
  have hG := h.past.grows_hist (σ.applied, .respond (c, (σ.clerk c).seqNum) v)
  have hflow := h.flow.mono hG
  refine ⟨h.past.respond ht₀ hans fun t v' he ↦ ?_, ⟨hflow.replica, hflow.handlers, hflow.request,
    hflow.pool, hflow.taken⟩, (Function.forall_update_iff _ (ClerkInv _)).mpr
    ⟨⟨?_, fun t m call' he ↦ ?_, fun t m v' he ↦ ?_, fun m h0 hm ↦ ?_, by simp⟩,
      fun b hb ↦ (h.clerk b).mono hG fun t e he ↦ ?_⟩,
    (Function.forall_update_iff _ (Waits _)).mpr ⟨fun r hr ↦ ?_, fun b _ ↦ h.waits b⟩⟩
  · exact lt_irrefl _ (hck.responded t _ v' he)
  · have := hck.pos
    change 0 < (σ.clerk c).seqNum + 1
    omega
  · obtain ⟨h0, hm⟩ := hck.past t m call' (by simpa using he)
    refine ⟨h0, Or.inl ?_⟩
    change m < (σ.clerk c).seqNum + 1
    omega
  · change m < (σ.clerk c).seqNum + 1
    rcases List.mem_append.mp he with hold | hnew
    · have := hck.responded t m v' hold
      omega
    · obtain ⟨-, rfl, -⟩ : t = σ.applied ∧ m = (σ.clerk c).seqNum ∧ v' = v := by simpa using hnew
      omega
  · change m < (σ.clerk c).seqNum + 1 at hm
    rcases (Int.lt_add_one_iff.mp hm).lt_or_eq with hlt | rfl
    · exact hck.done m h0 hlt
    · obtain ⟨k, hk, hreq, -⟩ := hans
      exact requests_mono hk hreq
  · rcases List.mem_append.mp he with hold | hnew
    · exact Or.inl hold
    · obtain ⟨-, rfl⟩ : t = σ.applied ∧ e = .respond (c, (σ.clerk c).seqNum) v := by
        simpa using hnew
      exact Or.inr ⟨by simp, by simp [Ne.symm hb]⟩
  · simp at hr

/-! ### Requests -/

/-- Requests make progress, and nothing else happens to them. -/
theorem waits_set (h : ServiceInv σ) {r : Nat} {rq : Request n} (hr : σ.requests[r]? = some rq)
    (progress : Progress) (c : Int) :
    Waits (σ.requests.set r { rq with progress := progress }) c (σ.clerk c) := by
  intro r' hr'
  obtain ⟨rq', call, hget, hcall, hop⟩ := h.waits c r' hr'
  by_cases heq : r = r'
  · subst heq
    obtain rfl := Option.some_inj.mp (hr.symm.trans hget)
    exact ⟨_, call, List.getElem?_set_self (List.getElem?_eq_some_iff.mp hr).1, hcall, hop⟩
  · exact ⟨rq', call, by rwa [List.getElem?_set_ne heq], hcall, hop⟩

theorem deliver (h : ServiceInv σ) {r : Nat} {rq : Request n} (hr : σ.requests[r]? = some rq) :
    ServiceInv { σ.setKV rq.server ((σ.replica rq.server).kv.handle rq.op) with
      requests := σ.requests.set r
        { rq with progress := .running (σ.replica rq.server).kv.handlers.length } } := by
  have hrp := h.flow.replica rq.server
  have hrq := h.flow.request rq (List.mem_of_getElem? hr)
  have hflow : Flow σ.toPast (σ.setKV rq.server ((σ.replica rq.server).kv.handle rq.op)) :=
    h.flow.setReplica (hrp.congr rfl hrp.hand (fun _ hx ↦ hx) rfl)
      ((h.flow.handlers rq.server).handle h.past.bound hrp.le hrq.known) (keeps_append _ _)
  refine ⟨h.past, ⟨hflow.replica, hflow.handlers, fun rq' hrq' ↦ ?_, hflow.pool, hflow.taken⟩,
    h.clerk, h.waits_set hr _⟩
  rcases List.mem_or_eq_of_mem_set hrq' with hold | rfl
  · exact hflow.request rq' hold
  · refine ⟨hrq.known, fun k hk ↦ ?_, by simp⟩
    obtain rfl : (σ.replica rq.server).kv.handlers.length = k := by simpa using hk
    refine ⟨⟨rq.op, false, .registered⟩, ?_, rfl⟩
    change (Function.update σ.replica rq.server _ rq.server).kv.handlers[_]? = _
    rw [Function.update_self]
    exact List.getElem?_concat_length

theorem answer (h : ServiceInv σ) {r k : Nat} {rq : Request n} {hd : Handler} {reply : Reply}
    (hr : σ.requests[r]? = some rq) (hp : rq.progress = .running k)
    (hh : (σ.replica rq.server).kv.handlers[k]? = some hd) (hs : hd.stage = .returned reply) :
    ServiceInv { σ with requests := σ.requests.set r { rq with progress := .answered reply } } := by
  have hrq := h.flow.request rq (List.mem_of_getElem? hr)
  refine ⟨h.past, ⟨h.flow.replica, h.flow.handlers, fun rq' hrq' ↦ ?_, h.flow.pool, h.flow.taken⟩,
    h.clerk, h.waits_set hr _⟩
  rcases List.mem_or_eq_of_mem_set hrq' with hold | rfl
  · exact h.flow.request rq' hold
  · refine ⟨hrq.known, by simp, fun reply' hreply ↦ ?_⟩
    obtain rfl : reply = reply' := by simpa using hreply
    obtain ⟨hd', hget, hop⟩ := hrq.running k hp
    obtain rfl := Option.some_inj.mp (hh.symm.trans hget)
    exact hop ▸ ((h.flow.handlers rq.server).each hd (List.mem_of_getElem? hh)).reply reply
      (Or.inr hs)

/-! ### Servers -/

/-- A server acts by itself. -/
theorem setReplica (h : ServiceInv σ) {a : Fin n} {rp : Replica} (hr : ReplicaInv σ.toPast rp)
    (hh : HandlersInv σ.toPast rp.kv) (hk : Keeps (σ.replica a).kv.handlers rp.kv.handlers) :
    ServiceInv (σ.setReplica a rp) :=
  ⟨h.past, h.flow.setReplica hr hh hk, h.clerk, h.waits⟩

/-- The handlers do not see that `guardApply` goes on, unless it is to signal one of them. -/
theorem handlers_guard (h : ServiceInv σ) {a : Fin n} {kv : KVServer}
    (him : kv.toImage = (σ.replica a).kv.toImage)
    (hsame : kv.handlers = (σ.replica a).kv.handlers ∧ kv.chanMap = (σ.replica a).kv.chanMap)
    (hg : ∀ k b, kv.guard ≠ .notifying (some k) b) : HandlersInv σ.toPast kv := by
  refine (h.flow.handlers a).advance (.refl h.past.bound) (h.flow.replica a).le
    (congrArg Image.lastApplied him).ge (hsame.1 ▸ .refl _) (fun hd hmem ↦ Or.inl (hsame.1 ▸ hmem))
    (fun _ _ hc ↦ Or.inl (hsame.2 ▸ hc)) fun k b hk ↦ absurd hk (hg k b)

theorem start (h : ServiceInv σ) {a : Fin n} {k : Nat} {isLeader : Bool} {hd : Handler}
    (hh : (σ.replica a).kv.handlers[k]? = some hd) :
    ServiceInv { σ.setKV a ((σ.replica a).kv.setStage k
        (if isLeader then .waiting else .returning .wrongLeader)) with
      pool := if isLeader then σ.pool ++ [(hd.op, σ.applied)] else σ.pool } := by
  have hrp := h.flow.replica a
  have hstage := (h.flow.handlers a).setStage h.past.bound hrp.le k
    (if isLeader then .waiting else .returning .wrongLeader)
    (by cases isLeader <;> simp) fun hd' _ r hr ↦ by
      obtain rfl : Reply.wrongLeader = r := by cases isLeader <;> simp_all
      exact Past.replies_wrongLeader _ _
  have hset : ServiceInv (σ.setKV a ((σ.replica a).kv.setStage k _)) := h.setReplica
    (hrp.congr rfl hrp.hand (fun _ hx ↦ hx) rfl) hstage (keeps_modify _ _ fun _ ↦ rfl)
  refine ⟨h.past, ⟨hset.flow.replica, hset.flow.handlers, hset.flow.request, fun x hx ↦ ?_,
    h.flow.taken⟩, h.clerk, h.waits⟩
  cases isLeader with
  | false => exact h.flow.pool x hx
  | true =>
    rcases List.mem_append.mp hx with hold | hnew
    · exact h.flow.pool x hold
    · rw [List.mem_singleton.mp hnew]
      exact ((h.flow.handlers a).each hd (List.mem_of_getElem? hh)).known

theorem work (h : ServiceInv σ) {a : Fin n} {task : KVServer.Task} {kv : KVServer}
    (hw : (σ.replica a).kv.Works task kv) :
    ServiceInv { σ.setKV a kv with applied := max σ.applied kv.lastApplied } := by
  have hrp := h.flow.replica a
  have hfwd := hrp.forward h.past.bound hw
  have hG := h.past.grows_applied kv.lastApplied
  have hflow := (h.flow.mono hG).setReplica (a := a)
    (hrp.work hG rfl hw (le_max_right _ _)) ((h.flow.handlers a).work hrp hG rfl hw) hw.keeps
  exact ⟨h.past.apply hfwd.2, ⟨hflow.replica, hflow.handlers, hflow.request, hflow.pool,
    hflow.taken⟩, fun c ↦ (h.clerk c).mono hG fun _ _ he ↦ Or.inl he, h.waits⟩

/-- A server that waits for a message has applied all it was handed. -/
theorem cursor_eq (h : ServiceInv σ) {a : Fin n} (hg : (σ.replica a).kv.guard = .receiving) :
    (σ.replica a).cursor = (σ.replica a).kv.lastApplied := by
  have hhand := (h.flow.replica a).hand
  rwa [hg] at hhand

theorem receive (h : ServiceInv σ) {a : Fin n} {op : Op}
    (hop : σ.log[(σ.replica a).cursor]? = some op) (hg : (σ.replica a).kv.guard = .receiving) :
    ServiceInv (σ.setReplica a { σ.replica a with
      kv := { (σ.replica a).kv with
        guard := .holding (.command ((σ.replica a).cursor + 1) (some op) 0) }
      cursor := (σ.replica a).cursor + 1 }) := by
  have hrp := h.flow.replica a
  have hcur := h.cursor_eq hg
  refine h.setReplica (hrp.congr rfl ?_ (fun _ hx ↦ hx) rfl)
    (h.handlers_guard (a := a) rfl ⟨rfl, rfl⟩ (by simp)) (.refl _)
  exact ⟨rfl, by rw [hcur], op, rfl, hcur ▸ hop⟩

theorem receiveSnap (h : ServiceInv σ) {a : Fin n} {j index : Nat} {data : Bytes}
    (hj : σ.taken[j]? = some (index, data)) (hlt : (σ.replica a).cursor < index)
    (hg : (σ.replica a).kv.guard = .receiving) :
    ServiceInv (σ.setReplica a { σ.replica a with
      kv := { (σ.replica a).kv with guard := .holding (.snapshot index 0 data) }
      cursor := index }) := by
  have hrp := h.flow.replica a
  have hcur := h.cursor_eq hg
  refine h.setReplica (hrp.congr rfl ?_ (fun _ hx ↦ hx) rfl)
    (h.handlers_guard (a := a) rfl ⟨rfl, rfl⟩ (by simp)) (.refl _)
  exact ⟨rfl, hcur ▸ hlt, h.flow.taken _ (List.mem_of_getElem? hj)⟩

theorem check (h : ServiceInv σ) {a : Fin n} {maxraftstate : Int} {size : Nat} {kv : KVServer}
    (hc : (σ.replica a).kv.check maxraftstate size = some kv) : ServiceInv (σ.setKV a kv) := by
  obtain ⟨-, hcase⟩ := KVServer.check_spec hc
  refine h.setReplica ((h.flow.replica a).check hc) ?_ ?_
  · rcases hcase with rfl | ⟨-, rfl⟩ <;>
      exact h.handlers_guard (a := a) rfl ⟨rfl, rfl⟩ (by simp)
  · rcases hcase with rfl | ⟨-, rfl⟩ <;> exact .refl _

/-- The snapshots a server has still to hand over become fewer. -/
theorem handlers_snapshots (h : ServiceInv σ) (a : Fin n) (snapshots : List (Nat × Bytes)) :
    HandlersInv σ.toPast { (σ.replica a).kv with snapshots := snapshots } :=
  ⟨(h.flow.handlers a).each, (h.flow.handlers a).chan, (h.flow.handlers a).waiter⟩

theorem snapshot (h : ServiceInv σ) {a : Fin n} {j index : Nat} {data : Bytes}
    (hj : (σ.replica a).kv.snapshots[j]? = some (index, data)) :
    ServiceInv { σ.setReplica a { σ.replica a with
        kv := { (σ.replica a).kv with snapshots := (σ.replica a).kv.snapshots.eraseIdx j }
        disk := (index, data) } with
      taken := σ.taken ++ [(index, data)] } := by
  have hrp := h.flow.replica a
  have htaken := hrp.pending _ (List.mem_of_getElem? hj)
  have hset : ServiceInv (σ.setReplica a { σ.replica a with
      kv := { (σ.replica a).kv with snapshots := (σ.replica a).kv.snapshots.eraseIdx j }
      disk := (index, data) }) := h.setReplica
    ⟨hrp.image, hrp.le, hrp.hand, fun x hx ↦ hrp.pending x (List.eraseIdx_subset hx),
      Or.inr htaken⟩ (h.handlers_snapshots a _) (.refl _)
  refine ⟨h.past, ⟨hset.flow.replica, hset.flow.handlers, hset.flow.request, h.flow.pool,
    fun x hx ↦ ?_⟩, h.clerk, h.waits⟩
  rcases List.mem_append.mp hx with hold | hnew
  · exact h.flow.taken x hold
  · rw [List.mem_singleton.mp hnew]
    exact htaken

theorem restart (h : ServiceInv σ) (a : Fin n) : ServiceInv (σ.restart a) := by
  have hrp := (h.flow.replica a).restart h.past.bound
  have hhd : HandlersInv σ.toPast (.startKVServer (σ.replica a).disk.2) := by
    obtain ⟨h1, h2, h3⟩ := KVServer.startKVServer_handlers (σ.replica a).disk.2
    exact ⟨by simp [h1], by simp [h2], by simp [h3]⟩
  refine ⟨h.past, ⟨(Function.forall_update_iff _ fun _ ↦ ReplicaInv _).mpr
      ⟨hrp, fun b _ ↦ h.flow.replica b⟩,
    (Function.forall_update_iff _ fun _ (rp : Replica) ↦ HandlersInv _ rp.kv).mpr
      ⟨hhd, fun b _ ↦ h.flow.handlers b⟩, fun rq' hrq' ↦ ?_, h.flow.pool, h.flow.taken⟩,
    h.clerk, fun c r hr ↦ ?_⟩
  · obtain ⟨rq, hrq, rfl⟩ := List.mem_map.mp hrq'
    have hold := h.flow.request rq hrq
    cases hp : rq.progress with
    | running k =>
      dsimp only
      split
      · exact ⟨hold.known, by simp, by simp⟩
      · next hne =>
        refine ⟨hold.known, fun k' hk' ↦ ?_, hold.answered⟩
        change ∃ hd, (Function.update σ.replica a _ rq.server).kv.handlers[k']? = some hd ∧ _
        rw [Function.update_of_ne hne]
        exact hold.running k' hk'
    | sent | answered | lost => exact ⟨hold.known, by simp [hp], hold.answered⟩
  · obtain ⟨rq, call, hget, hcall, hop⟩ := h.waits c r hr
    have hmap : (σ.restart a).requests[r]? = some _ :=
      List.getElem?_map.trans (congrArg (Option.map _) hget)
    refine ⟨_, call, hmap, hcall, ?_⟩
    dsimp only
    split
    · split <;> exact hop
    · exact hop

/-! ### The log -/

theorem commit (h : ServiceInv σ) {j floor : Nat} {op : Op} (hj : σ.pool[j]? = some (op, floor)) :
    ServiceInv { σ with log := σ.log ++ [op], pool := σ.pool.eraseIdx j } := by
  have hknown := h.flow.pool _ (List.mem_of_getElem? hj)
  have hG := h.past.grows_log op
  have hflow := h.flow.mono hG
  -- the clerk has made all its earlier calls, and they are in the log
  obtain ⟨t, ht⟩ := id hknown
  have hck := h.clerk op.clientId
  obtain ⟨hpos, hle⟩ := hck.past t op.seqNum op.call ht
  refine ⟨h.past.commit hknown (h.past.ordered.concat hpos fun m h0 hm ↦ ?_),
    ⟨hflow.replica, hflow.handlers, hflow.request,
      fun x hx ↦ hflow.pool x (List.eraseIdx_subset hx), hflow.taken⟩,
    fun c ↦ (h.clerk c).mono hG fun _ _ he ↦ Or.inl he, h.waits⟩
  exact requests_mono h.past.bound (hck.done m h0 (by omega))

/-- **Every move keeps the invariant.** -/
theorem step (h : ServiceInv σ) {maxraftstate : Int} {move : Move n}
    (hs : Service.Step maxraftstate σ move σ') : ServiceInv σ' := by
  cases hs with
  | invoke hc => exact h.invoke hc
  | send hc => exact h.send hc
  | @giveUp c => exact h.giveUp c
  | reply hc hw hr hp hv => exact h.reply hc hw hr hp hv
  | deliver hr => exact h.deliver hr
  | answer hr hp hh hs => exact h.answer hr hp hh hs
  | start hh => exact h.start hh
  | work hw => exact h.work hw
  | receive hop hg => exact h.receive hop hg
  | receiveSnap hj hlt hg => exact h.receiveSnap hj hlt hg
  | check hc => exact h.check hc
  | snapshot hj => exact h.snapshot hj
  | @snapshotOld a j =>
    have hrp := h.flow.replica a
    exact h.setReplica (hrp.congr rfl hrp.hand (List.eraseIdx_subset) rfl)
      (h.handlers_snapshots a _)
      (.refl _)
  | @install a j index data hj =>
    have hrp := h.flow.replica a
    exact h.setReplica ⟨hrp.image, hrp.le, hrp.hand, hrp.pending,
      Or.inr (h.flow.taken _ (List.mem_of_getElem? hj))⟩ (h.flow.handlers a) (.refl _)
  | commit hj => exact h.commit hj
  | @restart a => exact h.restart a

end ServiceInv

theorem Service.inv_init {n : Nat} [Labgob Image] : ServiceInv (Service.init : Service n) := by
  have hhd := KVServer.startKVServer_handlers []
  refine ⟨⟨le_rfl, ?_, ?_, ?_, ?_, ?_, ?_, ?_⟩, ⟨fun a ↦ ?_, fun a ↦ ?_, ?_, ?_, ?_⟩, fun c ↦ ?_,
    fun c r hr ↦ ?_⟩
  all_goals try simp [Service.init, Past.responses, Ordered]
  · exact ⟨rfl, le_rfl, rfl, by simp [KVServer.startKVServer, KVServer.decodeSnapshot], Or.inl rfl⟩
  · exact ⟨by simp [hhd.1], by simp [hhd.2.1], by simp [hhd.2.2]⟩
  · exact ⟨Int.one_pos, by simp, by simp, fun m h0 hm ↦ absurd hm (by simp [Clerk.make]; omega),
      by simp [Clerk.make]⟩
  · simp [Service.init, Clerk.make] at hr

/-- **The invariant holds in every run.** -/
theorem Service.inv_of_reach {n : Nat} [Labgob Image] {maxraftstate : Int} {σ : Service n}
    {P : Service n → Move n → Service n → Prop} (h : (machine n maxraftstate).Reach P σ) :
    ServiceInv σ :=
  h.invariant Service.inv_init fun _ _ _ _ hi hs _ ↦ hi.step (.of_step hs)

end DistLabs.KV
