import DistLabs.KV.Deployment
import DistLabs.Lib.Simulations
import DistLabs.Raft.Handover

/-!
# What the service expects of Raft, and what Raft gives

`DistLabs.KV.Service` describes Raft by its contract: one log that grows at its end, a pool of
operations that may be committed, servers that are handed the log in order.  The deployment has a
cluster of Raft servers in its place.  This file relates the two.

* What lies above Raft is the same in both (`Above`): the history, the clerks, the requests, and for
  each server its own state, the index it was handed last, and the snapshot on its disk.  The
  service does not know the terms that messages carry, so they are left out (`plain`).
* What lies below is read off the record (`Below`): the log of the service is the committed log, its
  snapshots are those that were cut, and its pool holds what `Start` accepted and nobody committed.

When a leader moves its commit index, the service commits the new entries one by one
(`Below.commitAll`): each of them waits in the pool, because it was started, and may be committed
beyond every index that had been applied by then, because of the real-time order of Raft.
-/

set_option autoImplicit false

namespace DistLabs.KV

variable {n : Nat}

open Cluster (CommittedAt IsCommitLog ReceivedUpTo)

/-! ## Without terms -/

/-- A message without its term. -/
def plainMsg : ApplyMsg Op → ApplyMsg Op
  | .command i c _ => .command i c 0
  | .snapshot i _ data => .snapshot i 0 data

/-- The place in the loop, without the term of the message in hand. -/
def Guard.plain : Guard → Guard
  | .holding msg => .holding (plainMsg msg)
  | .receiving => .receiving
  | .notifying waiter checks => .notifying waiter checks
  | .checking => .checking

namespace KVServer

/-- A server, without the term of the message in hand. -/
def plain (kv : KVServer) : KVServer := { kv with guard := kv.guard.plain }

variable {kv kv' : KVServer}

theorem started_plain {h : Nat} {isLeader : Bool} (hs : kv.started h isLeader = some kv') :
    kv.plain.started h isLeader = some kv'.plain := by
  obtain ⟨hd, hh, hst, rfl⟩ := started_spec hs
  change kv.plain.handlers[h]? = some hd at hh
  rw [started, hh, Option.bind_eq_bind, Option.bind_some, if_pos hst]
  rfl

theorem receive_plain {msg : ApplyMsg Op} (hr : kv.receive msg = some kv') :
    kv.plain.receive (plainMsg msg) = some kv'.plain := by
  obtain ⟨hg, rfl⟩ := receive_spec hr
  rw [receive, if_pos (by rw [plain, hg]; rfl)]
  rfl

theorem applyCommand_plain (kv : KVServer) (index : Nat) (op : Op) :
    kv.plain.applyCommand index op = (kv.applyCommand index op).plain := by
  rw [applyCommand, applyCommand]
  split
  · next h =>
    rw [if_pos (by exact h)]
    rfl
  · next h =>
    rw [if_neg (by exact h)]
    rfl

variable [Labgob Image]

theorem decodeSnapshot_plain (kv : KVServer) (data : Bytes) :
    kv.plain.decodeSnapshot data = (kv.decodeSnapshot data).plain := by
  rw [decodeSnapshot, decodeSnapshot]
  split
  · rfl
  · split <;> rfl

theorem startKVServer_plain (snapshot : Bytes) :
    (startKVServer snapshot).plain = startKVServer snapshot := by
  rw [startKVServer, ← decodeSnapshot_plain]
  rfl

theorem work_plain {task : Task} (hw : kv.Works task kv') :
    kv.plain.work task = some kv'.plain := by
  refine Works.work_eq ?_
  cases hw with
  | take hh hs hsig => exact (.take hh hs hsig : kv.plain.Works _ _)
  | read hh hs => exact (.read hh hs : kv.plain.Works _ _)
  | timeout hh hs => exact (.timeout hh hs : kv.plain.Works _ _)
  | leave hh hs => exact (.leave hh hs : kv.plain.Works _ _)
  | @snapshot index T data hg =>
    have hp : kv.plain.Works .process _ := .snapshot (T := 0) (show kv.plain.guard =
      .holding (.snapshot index 0 data) by rw [plain, hg]; rfl)
    rw [decodeSnapshot_plain] at hp
    exact hp
  | @command index op T hg =>
    rw [← applyCommand_plain]
    exact .command (T := 0) (by rw [plain, hg]; rfl)
  | @notify waiter checks hg =>
    have hp : kv.plain.Works .notify _ := .notify (show kv.plain.guard =
      .notifying waiter checks by rw [plain, hg]; rfl)
    cases checks <;> exact hp

theorem check_plain {maxraftstate : Int} {size : Nat} (hc : kv.check maxraftstate size = some kv') :
    kv.plain.check maxraftstate size = some kv'.plain := by
  have hg := (check_spec hc).1
  rw [check, if_pos hg, Option.some_inj] at hc
  rw [check, if_pos (by rw [plain, hg]; rfl), ← hc]
  rfl

end KVServer

/-! ## Above Raft -/

/-- A server as the service knows it. -/
def System.replica (σ : System n) (a : Fin n) : Replica where
  kv := (σ.server a).plain
  cursor := lastIndex (σ.raft.node a).startIndex (σ.raft.node a).received
  disk := ((σ.raft.node a).rf.snapIndex, (σ.raft.node a).rf.snapshot)

/-- What the service does not see may change. -/
theorem System.replica_congr {s s' : System n} {a : Fin n} (hkv : s'.server a = s.server a)
    (hview : Cluster.SameView (s.raft.node a) (s'.raft.node a)) : s'.replica a = s.replica a := by
  simp only [replica, hkv, hview.received, hview.startIndex, hview.snapIndex, hview.snapshot]

/-- It is enough to look at the place where something happens. -/
theorem System.replica_update {s s' : System n} {b : Fin n} {rp : Replica}
    (hother : ∀ a, a ≠ b → s'.server a = s.server a ∧
      Cluster.SameView (s.raft.node a) (s'.raft.node a)) (hb : s'.replica b = rp) :
    s'.replica = Function.update s.replica b rp := by
  funext a
  by_cases ha : a = b
  · rw [ha, Function.update_self, hb]
  · rw [Function.update_of_ne ha, replica_congr (hother a ha).1 (hother a ha).2]

/-- Only a key-value server changes. -/
theorem System.replica_setKV {s s' : System n} {b : Fin n} {kv : KVServer}
    (hkv : s'.server = Function.update s.server b kv)
    (hview : ∀ a, Cluster.SameView (s.raft.node a) (s'.raft.node a)) :
    s'.replica = Function.update s.replica b { s.replica b with kv := kv.plain } := by
  refine replica_update (fun a ha ↦ ⟨by rw [hkv, Function.update_of_ne ha], hview a⟩) ?_
  simp only [replica, hkv, Function.update_self, (hview b).received, (hview b).startIndex,
    (hview b).snapIndex, (hview b).snapshot]

/-- The deployment and the service agree above Raft. -/
structure Above (δ : Deployment n) (σ : Service n) : Prop where
  /-- The history. -/
  calls : σ.calls = δ.hist
  /-- The clerks. -/
  clerk : ∀ c, σ.clerk c = (δ.client c).toClerk
  /-- The requests. -/
  requests : σ.requests = δ.requests
  /-- The servers. -/
  replica : σ.replica = δ.system.replica

/-- A clerk changes. -/
theorem Above.clerk_update {δ : Deployment n} {σ : Service n} (h : Above δ σ) (c : Int)
    (ck : Client n) (c' : Int) :
    Function.update σ.clerk c ck.toClerk c' = (Function.update δ.client c ck c').toClerk := by
  by_cases hc : c' = c
  · rw [hc, Function.update_self, Function.update_self]
  · rw [Function.update_of_ne hc, Function.update_of_ne hc, h.clerk c']

/-- The service gets from one state to another. -/
def Service.Runs [Labgob Image] (maxraftstate : Int) (σ σ' : Service n) : Prop :=
  ((machine n maxraftstate).startingAt σ).Reach (fun _ _ _ ↦ True) σ'

theorem Service.runs_of_step [Labgob Image] {maxraftstate : Int} {σ σ' : Service n} (move : Move n)
    (h : σ.step maxraftstate move = some σ') : σ.Runs maxraftstate σ' :=
  Machine.Reach.single (M := machine n maxraftstate) (a := move) h trivial

namespace Service

variable [Labgob Image] {maxraftstate : Int} {σ : Service n} {b : Fin n} {index : Nat}
  {data : Bytes}

theorem step_invoke {c : Int} (call : Call) (hc : (σ.clerk c).call = none) :
    σ.step maxraftstate (.invoke c call) =
      some { σ.setClerk c { σ.clerk c with call := some call } with
        hist := σ.hist ++ [(σ.applied, .invoke (c, (σ.clerk c).seqNum) call)] } := by
  change σ.invoke c call = _
  rw [Service.invoke]
  exact if_pos hc

theorem step_send {c : Int} {call : Call} (a : Fin n) (hc : (σ.clerk c).call = some call)
    (hw : (σ.clerk c).waiting = none) :
    σ.step maxraftstate (.send c a) =
      some { σ.setClerk c { σ.clerk c with waiting := some σ.requests.length } with
        requests := σ.requests ++ [⟨a, call.op c (σ.clerk c).seqNum, .sent⟩] } := by
  change σ.send c a = _
  simp only [Service.send, hc, Option.bind_eq_bind, Option.bind_some, if_pos hw]
  rfl

theorem step_lose {c : Int} (hw : (σ.clerk c).waiting ≠ none) :
    σ.step maxraftstate (.lose c) = some (σ.setClerk c { σ.clerk c with waiting := none }) := by
  change σ.lose c = _
  rw [Service.lose]
  exact if_neg hw

theorem step_reply {c : Int} {call : Call} {r : Nat} {rq : Request n} {reply : Reply}
    (hc : (σ.clerk c).call = some call) (hw : (σ.clerk c).waiting = some r)
    (hr : σ.requests[r]? = some rq) (hp : rq.progress = .answered reply) :
    σ.step maxraftstate (.reply c) = some (match call.result reply with
      | none => σ.setClerk c { σ.clerk c with waiting := none }
      | some v => { σ.setClerk c ⟨(σ.clerk c).seqNum + 1, none, none⟩ with
          hist := σ.hist ++ [(σ.applied, .respond (c, (σ.clerk c).seqNum) v)] }) := by
  change σ.reply c = _
  simp only [Service.reply, hc, hw, hr, hp, Option.bind_eq_bind, Option.bind_some]
  cases call.result reply <;> rfl

theorem step_deliver {r : Nat} {rq : Request n} (hr : σ.requests[r]? = some rq)
    (hp : rq.progress = .sent) :
    σ.step maxraftstate (.deliver r) =
      some { σ.setKV rq.server ((σ.replica rq.server).kv.handle rq.op) with
        requests := σ.requests.set r
          { rq with progress := .running (σ.replica rq.server).kv.handlers.length } } := by
  change σ.deliver r = _
  simp only [Service.deliver, hr, Option.bind_eq_bind, Option.bind_some, if_pos hp]
  rfl

theorem step_answer {r h : Nat} {rq : Request n} {hd : Handler} {reply : Reply}
    (hr : σ.requests[r]? = some rq) (hp : rq.progress = .running h)
    (hh : (σ.replica rq.server).kv.handlers[h]? = some hd) (hs : hd.stage = .returned reply) :
    σ.step maxraftstate (.answer r) =
      some { σ with requests := σ.requests.set r { rq with progress := .answered reply } } := by
  change σ.answer r = _
  simp only [Service.answer, hr, hp, hh, hs, Option.bind_eq_bind, Option.bind_some]
  rfl

theorem step_receiveSnap {j : Nat} {kv : KVServer} (hj : σ.taken[j]? = some (index, data))
    (hlt : (σ.replica b).cursor < index)
    (hk : (σ.replica b).kv.receive (.snapshot index 0 data) = some kv) :
    σ.step maxraftstate (.receiveSnap b j) =
      some (σ.setReplica b { σ.replica b with kv := kv, cursor := index }) := by
  change σ.receiveSnap b j = _
  rw [Service.receiveSnap]
  simp only [hj, Option.bind_eq_bind, Option.bind_some, if_pos hlt, hk]
  rfl

theorem step_snapshot {k : Nat} (hk : (σ.replica b).kv.snapshots[k]? = some (index, data)) :
    σ.step maxraftstate (.snapshot b k) = some
      (if (σ.replica b).disk.1 < index then { σ.setReplica b { σ.replica b with
          kv := { (σ.replica b).kv with snapshots := (σ.replica b).kv.snapshots.eraseIdx k }
          disk := (index, data) } with taken := σ.taken ++ [(index, data)] }
      else σ.setKV b { (σ.replica b).kv with
        snapshots := (σ.replica b).kv.snapshots.eraseIdx k }) := by
  change σ.snapshot b k = _
  rw [Service.snapshot]
  simp only [hk, Option.bind_eq_bind, Option.bind_some]
  split <;> rfl

theorem step_install {j : Nat} (hj : σ.taken[j]? = some (index, data))
    (hlt : (σ.replica b).disk.1 < index) :
    σ.step maxraftstate (.install b j) =
      some (σ.setReplica b { σ.replica b with disk := (index, data) }) := by
  change σ.install b j = _
  rw [Service.install]
  simp only [hj, Option.bind_eq_bind, Option.bind_some, if_pos hlt]
  rfl

end Service

/-! ## Below -/

/-- `Start` has accepted `x.2.1` and returned the index and the term in `x.1`, at a time when no
index beyond `x.2.2` had been received anywhere. -/
def Accepted (hist : List (Event n Op)) (x : (Nat × Int) × Op × Nat) : Prop :=
  ∃ a before after, hist = before ++ .started a x.1.1 x.1.2 (some x.2.1) :: after ∧
    ReceivedUpTo before x.2.2

/-- Index `i` of the log has an entry of term `T`. -/
def HasTerm (L : List (Entry Op)) (i : Nat) (T : Int) : Prop :=
  0 < i ∧ ∃ e, L[i - 1]? = some e ∧ e.term = T

/-- The service's view of what is on record in Raft, with `L` for the committed log. -/
structure Below (hist : List (Event n Op)) (L : List (Entry Op)) (σ : Service n) : Prop where
  /-- The log. -/
  log : L.map Entry.command = σ.log.map some
  /-- The snapshots. -/
  taken : ∀ b s data rf, .cut b s data rf ∈ hist → (s, data) ∈ σ.taken
  /-- What is applied was received. -/
  applied : ReceivedUpTo hist σ.applied
  /-- What was started is committed or waits in the pool. -/
  pool : ∃ tagged : List ((Nat × Int) × Op × Nat), σ.pool = tagged.map Prod.snd ∧
    (∀ x ∈ tagged, Accepted hist x) ∧
    ∀ a i T c, .started a i T c ∈ hist → HasTerm L i T ∨ ∃ x ∈ tagged, x.1 = (i, T)

namespace Below

variable {hist hist' : List (Event n Op)} {L : List (Entry Op)} {σ σ' : Service n}

/-- The record grows, but nothing is started. -/
theorem advance (h : Below hist L σ) (evs : List (Event n Op)) (hist_eq : hist' = hist ++ evs)
    (hstart : ∀ a i T c, .started a i T c ∈ hist' → .started a i T c ∈ hist)
    (hlog : σ'.log = σ.log) (hpool : σ'.pool = σ.pool)
    (hcut : ∀ b s data rf, .cut b s data rf ∈ hist' → (s, data) ∈ σ'.taken)
    (happ : ReceivedUpTo hist' σ'.applied) : Below hist' L σ' := by
  obtain ⟨tagged, htag, hacc, hall⟩ := h.pool
  refine ⟨by rw [hlog]; exact h.log, hcut, happ, tagged, by rw [hpool, htag], fun x hx ↦ ?_,
    fun a i T c hs ↦ hall a i T c (hstart a i T c hs)⟩
  obtain ⟨a, before, after, heq, hfloor⟩ := hacc x hx
  exact ⟨a, before, after ++ evs, by rw [hist_eq, heq]; simp, hfloor⟩

/-- Nothing happens to Raft. -/
theorem congr (h : Below hist L σ) (hlog : σ'.log = σ.log) (hpool : σ'.pool = σ.pool)
    (htaken : σ'.taken = σ.taken) (happ : σ'.applied = σ.applied) : Below hist L σ' :=
  h.advance [] (by simp) (fun _ _ _ _ h ↦ h) hlog hpool (htaken ▸ h.taken) (happ ▸ h.applied)

/-- `Start` accepts an operation. -/
theorem start (h : Below hist L σ) {a : Fin n} {i : Nat} {T : Int} {op : Op}
    (hist_eq : hist' = hist ++ [.started a i T (some op)]) (hlog : σ'.log = σ.log)
    (hpool : σ'.pool = σ.pool ++ [(op, σ.applied)]) (htaken : σ'.taken = σ.taken)
    (happ : σ'.applied = σ.applied) : Below hist' L σ' := by
  have hsub : hist ⊆ hist' := hist_eq ▸ List.subset_append_left ..
  obtain ⟨tagged, htag, hacc, hall⟩ := h.pool
  refine ⟨by rw [hlog]; exact h.log, fun b s data rf he ↦ ?_,
    by rw [happ]; exact h.applied.mono hsub,
    tagged ++ [((i, T), op, σ.applied)], by simp [hpool, htag], fun x hx ↦ ?_, fun b j U c hs ↦ ?_⟩
  · rw [htaken]
    exact h.taken b s data rf (by simpa [hist_eq] using he)
  · rcases List.mem_append.mp hx with hold | hnew
    · obtain ⟨b, before, after, heq, hfloor⟩ := hacc x hold
      exact ⟨b, before, after ++ [.started a i T (some op)], by rw [hist_eq, heq]; simp, hfloor⟩
    · rw [List.mem_singleton.mp hnew]
      exact ⟨a, hist, [], hist_eq, h.applied⟩
  · rw [hist_eq] at hs
    rcases List.mem_append.mp hs with hold | hnew
    · refine (hall b j U c hold).imp id fun ⟨x, hx, hxe⟩ ↦ ⟨x, ?_, hxe⟩
      exact List.mem_append_left _ hx
    · obtain ⟨-, rfl, rfl, -⟩ : b = a ∧ j = i ∧ U = T ∧ c = some op := by simpa using hnew
      exact Or.inr ⟨_, List.mem_append_right _ (List.mem_singleton_self _), rfl⟩

variable [Labgob Image]

/-- **The next committed entry can be committed by the service.**  It was started, so it waits in
the pool; and no index from its own on had been received when it was started. -/
theorem commit (maxraftstate : Int) {ρ : Cluster n Op} {g : RaftLedger n Op}
    (h : Below ρ.hist L σ) (hg : Rel ρ g)
    (hs : ρ.SnapInv) (ho : ρ.OriginInv) {e : Entry Op}
    (hc : CommittedAt ρ.hist (L.length + 1) e) :
    ∃ j log pool, σ.step maxraftstate (.commit j) = some { σ with log := log, pool := pool } ∧
      Below ρ.hist (L ++ [e]) { σ with log := log, pool := pool } := by
  obtain ⟨tagged, htag, hacc, hall⟩ := h.pool
  obtain ⟨a, hstarted⟩ := Cluster.started_of_committedAt ho hc
  have hlen : σ.log.length = L.length := by
    simpa using (congrArg List.length h.log).symm
  -- the entry is in the pool
  obtain ⟨x, hx, hxe⟩ : ∃ x ∈ tagged, x.1 = (L.length + 1, e.term) := by
    refine (hall _ _ _ _ hstarted).resolve_left ?_
    rintro ⟨-, e', he', -⟩
    simp at he'
  obtain ⟨⟨i, T⟩, op, floor⟩ := x
  obtain ⟨rfl, rfl⟩ : i = L.length + 1 ∧ T = e.term := by simpa using hxe
  obtain ⟨b, before, after, hist_eq, hfloor⟩ := hacc _ hx
  have hcommand : e.command = some op := by
    have h1 := (hg.event _ hstarted).2
    have h2 := (hg.event (.started b (L.length + 1) e.term (some op)) (by simp [hist_eq])).2
    have := Option.some_inj.mp (h1.symm.trans h2)
    exact congrArg Entry.command this
  -- and may be committed
  have hlt : floor < σ.log.length + 1 := by
    rw [hlen]
    rcases hfloor with rfl | ⟨d, m, hm, hle⟩
    · exact Nat.succ_pos _
    · by_contra hge
      obtain ⟨U, k, e', hk, hik, he', hne⟩ :=
        hg.realTime before after b _ _ _ hist_eq d m hm (by dsimp only at hle ⊢; omega)
      have hcom := (Cluster.committedAt_iff hg hs).mp hc
      have hcom' : Committed g (L.length + 1) e' := ⟨U, k, hk, by omega, hik, he'⟩
      exact hne (congrArg Entry.term (hcom'.unique hg.inv hcom))
  obtain ⟨j, hj⟩ := List.mem_iff_getElem?.mp hx
  have hpool : σ.pool[j]? = some (op, floor) := by rw [htag, List.getElem?_map, hj]; rfl
  refine ⟨j, σ.log ++ [op], σ.pool.eraseIdx j, ?_, ⟨?_, h.taken, h.applied,
    tagged.eraseIdx j, ?_, fun y hy ↦ hacc y (List.mem_of_mem_eraseIdx hy), fun d i' T' c hst ↦ ?_⟩⟩
  · change σ.commit j = _
    rw [Service.commit, hpool, Option.bind_eq_bind, Option.bind_some]
    dsimp only
    rw [if_pos hlt]
    rfl
  · simp [h.log, hcommand]
  · rw [htag, List.eraseIdx_map]
  · by_cases hsame : (i', T') = (L.length + 1, e.term)
    · obtain ⟨rfl, rfl⟩ := Prod.mk.inj hsame
      exact Or.inl ⟨Nat.succ_pos _, e, by simp, rfl⟩
    · rcases hall d i' T' c hst with ⟨h0, e', he', hT⟩ | ⟨y, hy, hye⟩
      · refine Or.inl ⟨h0, e', ?_, hT⟩
        rw [List.getElem?_append_left (List.getElem?_eq_some_iff.mp he').1]
        exact he'
      · obtain ⟨k, hk⟩ := List.mem_iff_getElem?.mp hy
        refine Or.inr ⟨y, List.mem_eraseIdx_iff_getElem?.mpr ⟨k, ?_, hk⟩, hye⟩
        rintro rfl
        rw [hj, Option.some_inj] at hk
        exact hsame (hye.symm.trans (congrArg Prod.fst hk).symm)

/-- And so can all that are committed by now. -/
theorem commitAll (maxraftstate : Int) {ρ : Cluster n Op} {g : RaftLedger n Op}
    (hg : Rel ρ g) (hs : ρ.SnapInv)
    (ho : ρ.OriginInv) (more : List (Entry Op)) :
    ∀ {L : List (Entry Op)} {σ : Service n}, Below ρ.hist L σ → IsCommitLog ρ.hist (L ++ more) →
      ∃ log pool, σ.Runs maxraftstate { σ with log := log, pool := pool } ∧
        Below ρ.hist (L ++ more) { σ with log := log, pool := pool } := by
  induction more with
  | nil =>
    intro L σ h _
    exact ⟨σ.log, σ.pool, Machine.Reach.init, by simpa using h⟩
  | cons e more ih =>
    intro L σ h hL
    have hc : CommittedAt ρ.hist (L.length + 1) e := (hL L.length e).mp (by simp)
    obtain ⟨j, log, pool, hj, hb⟩ := h.commit maxraftstate hg hs ho hc
    obtain ⟨log', pool', hr, hb'⟩ := ih hb (by simpa using hL)
    refine ⟨log', pool', ?_, by simpa using hb'⟩
    exact (Service.runs_of_step _ hj).append hr

end Below

end DistLabs.KV
