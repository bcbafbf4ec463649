import DistLabs.KV.Contract
import DistLabs.KV.Linearize

/-!
# Linearizability of the whole program

Every run of a deployment that is `Sound` is accompanied by a run of the service in which the clerks
see the same (`Refines`), so what the clerks of the deployment see is linearizable, too.
-/

set_option autoImplicit false

namespace DistLabs.KV

variable {n : Nat}

open Cluster (CommittedAt IsCommitLog ReceivedUpTo)

/-! ## The servers -/

section

variable [Labgob Image] [Labgob (Saved n Op)]

/-- The service can follow the servers: it runs to a state that agrees with theirs, while nothing
happens to the clerks. -/
def Follows (maxraftstate : Int) (σ : Service n) (s' : System n) (L : List (Entry Op)) : Prop :=
  ∃ σ', σ.Runs maxraftstate σ' ∧
    (σ'.hist = σ.hist ∧ σ'.clerk = σ.clerk ∧ σ'.requests = σ.requests) ∧
    σ'.replica = s'.replica ∧ Below s'.raft.hist L σ'

/-- A run of the servers as they should be used. -/
def System.Proper (maxraftstate : Int) (s : System n) : Prop :=
  (machine n maxraftstate).Reach (fun s act s' ↦ s'.raft.MajorityBacked ∧ s.TakesOldest act) s

namespace Follows

variable {maxraftstate : Int} {s s' : System n} {σ : Service n} {L : List (Entry Op)} {b : Fin n}
  {kv : KVServer}

/-- What a server has applied was received, by it or by the server whose snapshot it has. -/
theorem receivedUpTo_lastApplied (hp : s.Proper maxraftstate) (b : Fin n) :
    ReceivedUpTo s.raft.hist (s.server b).lastApplied := by
  have hraft := System.reach_raft hp
  have hand := Cluster.handoverInv_of_reach hraft
  obtain ⟨seen, hseen, hlast⟩ := ((System.snapshotsInv_of_reach hp).server b).place
  rcases List.eq_nil_or_concat seen with rfl | ⟨init, m, rfl⟩
  · refine ReceivedUpTo.anti ?_ (hlast.symm.le.trans (hand.start_le b))
    rcases (Cluster.snapInv_of_reach hraft).node b with ⟨h0, -⟩ | ⟨d, rf, hcut⟩
    · exact Or.inl h0
    · exact hand.cut _ _ _ _ hcut
  · rw [List.concat_eq_append, lastIndex_concat] at hlast
    exact Or.inr ⟨b, m, hand.recorded b m (by simp [hseen]), hlast.ge⟩

omit [Labgob Image] [Labgob (Saved n Op)] in
theorem sameView_of_eq {s s' : System n} (hr : s'.raft = s.raft) (a : Fin n) :
    Cluster.SameView (s.raft.node a) (s'.raft.node a) := by
  rw [hr]
  exact ⟨rfl, rfl, rfl, rfl⟩

/-- A section of a server that does not involve Raft. -/
theorem work (hrep : σ.replica = s.replica) (hb : Below s.raft.hist L σ)
    (hp : s'.Proper maxraftstate) {task : KVServer.Task} (hw : (s.server b).Works task kv)
    (hr : s'.raft = s.raft) (hkv : s'.server = Function.update s.server b kv) :
    Follows maxraftstate σ s' L := by
  have happ := receivedUpTo_lastApplied hp b
  rw [hkv, Function.update_self, hr] at happ
  refine ⟨{ σ.setKV b kv.plain with applied := max σ.applied kv.lastApplied },
    Service.runs_of_step (.work b task) ?_, ⟨rfl, rfl, rfl⟩, ?_, ?_⟩
  · change σ.work b task = _
    rw [Service.work, hrep]
    simp only [System.replica, KVServer.work_plain hw]
    rfl
  · rw [System.replica_setKV hkv (sameView_of_eq hr), ← hrep]
    rfl
  · rw [hr]
    refine hb.advance [] (by simp) (fun _ _ _ _ h ↦ h) rfl rfl hb.taken ?_
    change ReceivedUpTo _ (max σ.applied kv.lastApplied)
    rcases max_choice σ.applied kv.lastApplied with h | h <;> rw [h]
    · exact hb.applied
    · exact happ

omit [Labgob (Saved n Op)] in
/-- The size check. -/
theorem check (hrep : σ.replica = s.replica) (hb : Below s.raft.hist L σ) {size : Nat}
    (hc : (s.server b).check maxraftstate size = some kv) (hr : s'.raft = s.raft)
    (hkv : s'.server = Function.update s.server b kv) : Follows maxraftstate σ s' L := by
  refine ⟨σ.setKV b kv.plain, Service.runs_of_step (.check b size) ?_, ⟨rfl, rfl, rfl⟩, ?_, ?_⟩
  · rw [Service.step, hrep]
    simp only [System.replica, KVServer.check_plain hc]
    rfl
  · rw [System.replica_setKV hkv (sameView_of_eq hr), ← hrep]
    rfl
  · rw [hr]
    exact hb.congr rfl rfl rfl rfl

/-- A handler calls `Start`. -/
theorem start (hrep : σ.replica = s.replica) (hb : Below s.raft.hist L σ) {h : Nat}
    (hs : s.step maxraftstate (.start b h) = some s') : Follows maxraftstate σ s' L := by
  obtain ⟨hd, hh, hs⟩ := Option.bind_eq_some_iff.mp hs
  obtain ⟨kv, hst, hs⟩ := Option.bind_eq_some_iff.mp hs
  obtain ⟨raft, hr, hs⟩ := Option.bind_eq_some_iff.mp hs
  obtain ⟨hcase, hview⟩ := Cluster.start_cases hr
  have hs' := Option.some_inj.mp hs
  have hraft : s'.raft = raft := congrArg System.raft hs'.symm
  have hkv : s'.server = Function.update s.server b kv := congrArg System.server hs'.symm
  rw [← hraft] at hcase hview
  -- the service learns what the cluster said
  have hrun : ∀ isLeader, (s.server b).started h isLeader = some kv →
      σ.Runs maxraftstate { σ.setKV b kv.plain with
        pool := if isLeader then σ.pool ++ [(hd.op, σ.applied)] else σ.pool } := by
    intro isLeader hst
    refine Service.runs_of_step (.start b h isLeader) ?_
    change σ.start b h isLeader = _
    have hh' : (s.server b).plain.handlers[h]? = some hd := hh
    rw [Service.start, hrep]
    simp only [System.replica, hh', KVServer.started_plain hst]
    rfl
  have hrep' := (System.replica_setKV hkv hview).symm
  rw [← hrep] at hrep'
  rcases hcase with ⟨hyes, i, T, hist⟩ | ⟨hno, hist⟩
  · rw [hyes] at hst
    exact ⟨_, hrun true hst, ⟨rfl, rfl, rfl⟩, hrep', hb.start hist rfl rfl rfl rfl⟩
  · rw [hno] at hst
    refine ⟨_, hrun false hst, ⟨rfl, rfl, rfl⟩, hrep', ?_⟩
    rw [hist]
    exact hb.congr rfl rfl rfl rfl

/-- A server hands a snapshot to Raft, which may have a newer one. -/
theorem snapshot (hrep : σ.replica = s.replica) (hb : Below s.raft.hist L σ) {k : Nat}
    (hs : s.step maxraftstate (.snapshot b k) = some s') : Follows maxraftstate σ s' L := by
  obtain ⟨⟨index, data⟩, hk, hs⟩ := Option.bind_eq_some_iff.mp hs
  obtain ⟨raft, hr, hs⟩ := Option.bind_eq_some_iff.mp hs
  have hcase := Cluster.snapshot_cases hr
  have hs' := Option.some_inj.mp hs
  have hraft : s'.raft = raft := congrArg System.raft hs'.symm
  have hkv : s'.server = Function.update s.server b
      { s.server b with snapshots := (s.server b).snapshots.eraseIdx k } :=
    congrArg System.server hs'.symm
  rw [← hraft] at hcase
  have hk' : (σ.replica b).kv.snapshots[k]? = some (index, data) := by rw [hrep]; exact hk
  have hrun : σ.Runs maxraftstate _ := Service.runs_of_step _ (Service.step_snapshot hk')
  have hdisk : (σ.replica b).disk.1 = (s.raft.node b).rf.snapIndex := by rw [hrep]; rfl
  rcases hcase with ⟨hle, hnode, hist⟩ | ⟨hlt, hist, rf, hnode, hidx, hdata⟩
  · rw [if_neg (by omega)] at hrun
    refine ⟨_, hrun, ⟨rfl, rfl, rfl⟩, ?_, ?_⟩
    · rw [System.replica_setKV hkv fun a ↦ by rw [hnode]; exact ⟨rfl, rfl, rfl, rfl⟩, ← hrep]
      simp only [Service.setKV, Service.setReplica, hrep]
      rfl
    · rw [hist]
      exact hb.congr rfl rfl rfl rfl
  · rw [if_pos (by omega)] at hrun
    refine ⟨_, hrun, ⟨rfl, rfl, rfl⟩, ?_, ?_⟩
    · simp only [Service.setReplica, hrep]
      refine (System.replica_update (fun a ha ↦ ⟨?_, ?_⟩) ?_).symm
      · rw [hkv, Function.update_of_ne ha]
      · rw [hnode, Cluster.setRf, Cluster.setNode_of_ne _ _ ha]
        exact ⟨rfl, rfl, rfl, rfl⟩
      · simp only [System.replica, hkv, hnode, hidx, hdata, Function.update_self,
          Cluster.setRf_self]
        rfl
    · refine hb.advance _ hist (fun a i T c he ↦ ?_) rfl rfl (fun d i x rf' he ↦ ?_)
        (hb.applied.mono (hist ▸ List.subset_append_left ..))
      · simpa [hist] using he
      · rw [hist] at he
        rcases List.mem_append.mp he with hold | hnew
        · exact List.mem_append_left _ (hb.taken d i x rf' hold)
        · obtain ⟨-, rfl, rfl, -⟩ := Event.cut.inj (List.mem_singleton.mp hnew)
          exact List.mem_append_right _ (List.mem_singleton_self _)

/-- **A message is received.**  Raft hands over its messages in order, so the service has the same
message to hand over: a committed command, or a snapshot that was taken. -/
theorem receive (hrep : σ.replica = s.replica) (hb : Below s.raft.hist L σ)
    (hL : IsCommitLog s.raft.hist L) (hp : s.Proper maxraftstate) (hp' : s'.Proper maxraftstate)
    {msg : ApplyMsg Op} (hk : (s.server b).receive msg = some kv)
    (hh : Cluster.Hands s.raft s'.raft b msg) (hkv : s'.server = Function.update s.server b kv) :
    Follows maxraftstate σ s' L := by
  have hraft := System.reach_raft hp
  obtain ⟨batch, sends, hnode⟩ := hh.node
  -- the message follows those that were received before
  have hfollows : DistLabs.Follows (s.raft.node b).startIndex (s.raft.node b).received msg := by
    obtain ⟨q, -, hord, -⟩ :=
      (Cluster.delivery_of_reach (fun _ _ _ h ↦ h.2) (System.reach_raft hp') b).queue
    rw [hnode, Cluster.setNode_self] at hord
    exact hord.of_append (s.raft.node b).received msg [] rfl
  -- where the service stands afterwards
  have hrep' : s'.replica = Function.update s.replica b
      { s.replica b with kv := kv.plain, cursor := msg.index } := by
    refine System.replica_update (fun a ha ↦ ⟨?_, ?_⟩) ?_
    · rw [hkv, Function.update_of_ne ha]
    · rw [hnode, Cluster.setNode_of_ne _ _ ha]
      exact ⟨rfl, rfl, rfl, rfl⟩
    · simp only [System.replica, hkv, hnode, Function.update_self, Cluster.setNode_self,
        lastIndex_concat]
  have hbelow : ∀ σ' : Service n, σ'.log = σ.log → σ'.pool = σ.pool → σ'.taken = σ.taken →
      σ'.applied = σ.applied → Below s'.raft.hist L σ' := by
    intro σ' h1 h2 h3 h4
    refine hb.advance _ hh.hist (fun a i T c he ↦ ?_) h1 h2 (fun d i x rf he ↦ ?_) ?_
    · simpa [hh.hist] using he
    · rw [h3]
      exact hb.taken d i x rf (by simpa [hh.hist] using he)
    · rw [h4]
      exact hb.applied.mono (hh.hist ▸ List.subset_append_left ..)
  have hplain := KVServer.receive_plain hk
  cases msg with
  | command i c T =>
    -- it is the next entry of the committed log
    obtain rfl : i = lastIndex (s.raft.node b).startIndex (s.raft.node b).received + 1 := hfollows
    obtain ⟨g, hg, -⟩ := Cluster.rel_of_reach (fun _ _ _ h ↦ h.1) hraft
    have hcom := (Cluster.committedAt_iff hg (Cluster.snapInv_of_reach hraft)).mpr
      ((hg.node b).msgs _ hh.mem).1
    have hentry := (hL _ _).mpr hcom
    have hlog := congrArg
      (·[lastIndex (s.raft.node b).startIndex (s.raft.node b).received]?) hb.log
    simp only [List.getElem?_map, hentry, Option.map_some] at hlog
    obtain ⟨op, hop, rfl⟩ := Option.map_eq_some_iff.mp hlog.symm
    refine ⟨σ.setReplica b { s.replica b with
        kv := kv.plain
        cursor := lastIndex (s.raft.node b).startIndex (s.raft.node b).received + 1 },
      Service.runs_of_step (.receive b) ?_, ⟨rfl, rfl, rfl⟩, ?_, hbelow _ rfl rfl rfl rfl⟩
    · change σ.receive b = _
      rw [plainMsg] at hplain
      rw [Service.receive, hrep]
      simp only [System.replica, hop, hplain, Option.bind_eq_bind, Option.bind_some]
      rfl
    · rw [hrep', ← hrep]
      rfl
  | snapshot i T data =>
    have hsnap := Cluster.snapInv_of_reach hraft
    obtain ⟨h0, hsrc⟩ := hsnap.msg b _ hh.mem
    obtain ⟨d, rf, hcut⟩ := hsrc.resolve_left fun h ↦ by omega
    obtain ⟨j, hj⟩ := List.mem_iff_getElem?.mp (hb.taken d i data rf hcut)
    have hlt : lastIndex (s.raft.node b).startIndex (s.raft.node b).received < i := by
      rcases List.eq_nil_or_concat (s.raft.node b).received with hnil | ⟨init, m, hlast⟩
      · rw [hnil]
        exact (Cluster.handoverInv_of_reach hraft).beyond b _ hh.mem
      · rw [hlast, List.concat_eq_append, lastIndex_concat]
        exact hfollows m (by simp [hlast])
    have hplain' : (σ.replica b).kv.receive (.snapshot i 0 data) = some kv.plain := by
      rw [hrep]
      exact hplain
    refine ⟨_, Service.runs_of_step _
      (Service.step_receiveSnap hj (by rw [hrep]; exact hlt) hplain'),
      ⟨rfl, rfl, rfl⟩, ?_, hbelow _ rfl rfl rfl rfl⟩
    rw [hrep', ← hrep]
    rfl

/-- The cluster does something by itself; one of its servers may save a snapshot it was sent. -/
theorem raft (hrep : σ.replica = s.replica) (hb : Below s.raft.hist L σ)
    (hp : s.Proper maxraftstate) (hp' : s'.Proper maxraftstate) {act : Action n Op}
    (hint : internal act = true) (hr : s.raft.step act = some s'.raft)
    (hkv : s'.server = s.server) : Follows maxraftstate σ s' L := by
  have ht := Cluster.Trans.of_step hr
  have hraft := System.reach_raft hp
  obtain ⟨evs, hevs, -⟩ := ht.hist_cases
  have hcut : ∀ d i data rf, .cut d i data rf ∈ s'.raft.hist → .cut d i data rf ∈ s.raft.hist := by
    intro d i data rf he
    refine (ht.cut_cases he).resolve_right ?_
    rintro rfl
    simp [internal] at hint
  have hbelow : ∀ σ' : Service n, σ'.log = σ.log → σ'.pool = σ.pool → σ'.taken = σ.taken →
      σ'.applied = σ.applied → Below s'.raft.hist L σ' := by
    intro σ' h1 h2 h3 h4
    refine hb.advance evs hevs (fun a i T c he ↦ ?_) h1 h2 (fun d i x rf he ↦ ?_) ?_
    · refine (ht.started_cases he).resolve_right ?_
      rintro rfl
      simp [internal] at hint
    · rw [h3]
      exact hb.taken d i x rf (hcut d i x rf he)
    · rw [h4]
      exact hb.applied.mono (hevs ▸ List.subset_append_left ..)
  have hservice := fun a ↦ ht.service_same (a := a) (by rintro rfl; simp [internal] at hint)
    (by rintro k rfl; simp [internal] at hint) (by rintro rfl; simp [internal] at hint)
  -- the disks that stay as they are
  have hstay : ∀ a, (s'.raft.node a).rf.snapIndex = (s.raft.node a).rf.snapIndex ∧
      (s'.raft.node a).rf.snapshot = (s.raft.node a).rf.snapshot → s'.replica a = s.replica a :=
    fun a hd ↦ System.replica_congr (by rw [hkv])
      ⟨(hservice a).1, (hservice a).2, hd.1, hd.2⟩
  have hdisk := fun a ↦ ht.disk_cases (Cluster.atRest_of_reach hraft)
    (Cluster.snapInv_of_reach (System.reach_raft hp')) a
  by_cases hall : ∀ a, s'.replica a = s.replica a
  · exact ⟨σ, Machine.Reach.init, ⟨rfl, rfl, rfl⟩, hrep.trans (funext hall).symm,
      hbelow σ rfl rfl rfl rfl⟩
  · obtain ⟨d, hd⟩ := not_forall.mp hall
    obtain ⟨hlt, e, rf, hcut'⟩ := (hdisk d).resolve_left fun h ↦ hd (hstay d h)
    obtain ⟨j, hj⟩ := List.mem_iff_getElem?.mp (hb.taken _ _ _ _ (hcut _ _ _ _ hcut'))
    -- no other server does anything
    have hother : ∀ a, a ≠ d → s'.replica a = s.replica a := by
      intro a ha
      rcases ht.node_cases with hsame | ⟨x, nd, hx⟩
      · exact hstay a (by rw [hsame]; exact ⟨rfl, rfl⟩)
      · by_cases hxd : x = d
        · subst hxd
          exact hstay a (by rw [hx, Cluster.setNode_of_ne _ _ ha]; exact ⟨rfl, rfl⟩)
        · rw [hx, Cluster.setNode_of_ne _ _ (Ne.symm hxd)] at hlt
          exact absurd hlt (lt_irrefl _)
    have hlt' : (σ.replica d).disk.1 < (s'.raft.node d).rf.snapIndex := by
      rw [hrep]
      exact hlt
    refine ⟨_, Service.runs_of_step _ (Service.step_install hj hlt'), ⟨rfl, rfl, rfl⟩, ?_,
      hbelow _ rfl rfl rfl rfl⟩
    funext a
    by_cases ha : a = d
    · subst ha
      simp only [Service.setReplica, Function.update_self, hrep, System.replica, hkv,
        (hservice a).1, (hservice a).2]
    · simp only [Service.setReplica, Function.update_of_ne ha, hrep, hother a ha]

/-- **The service follows the servers** in whatever they do without a clerk and without crashing. -/
theorem inner (hrep : σ.replica = s.replica) (hb : Below s.raft.hist L σ)
    (hL : IsCommitLog s.raft.hist L) (hp : s.Proper maxraftstate) (hp' : s'.Proper maxraftstate)
    {act : Act n} (hin : act.inner = true) (hs : s.step maxraftstate act = some s') :
    Follows maxraftstate σ s' L := by
  cases System.Step.of_step hs with
  | raft hint hr hkv => exact raft hrep hb hp hp' hint hr hkv
  | handle | restart => simp [Act.inner] at hin
  | start => exact start hrep hb hs
  | work hw hr hkv => exact work hrep hb hp' hw hr hkv
  | receive hm hk hr hkv =>
    exact receive hrep hb hL hp hp' hk ((Cluster.Trans.of_step hr).hands_send hm) hkv
  | receiveSnap hm hk hr hkv =>
    exact receive hrep hb hL hp hp' hk ((Cluster.Trans.of_step hr).hands_sendSnap hm) hkv
  | check hc hr hkv => exact check hrep hb hc hr hkv
  | snapshot => exact snapshot hrep hb hs

end Follows

/-! ## The clerks -/

/-- The deployment and the service agree. -/
structure Refines (δ : Deployment n) (σ : Service n) : Prop where
  /-- Above Raft. -/
  above : Above δ σ
  /-- And below. -/
  below : ∃ L, IsCommitLog δ.system.raft.hist L ∧ Below δ.system.raft.hist L σ

variable {maxraftstate : Int} {δ δ' : Deployment n} {deed : Deed n} {σ σ' : Service n}
  {L : List (Entry Op)}

/-- A crash loses what is not on the disk, in both. -/
theorem System.replica_restart {s s' : System n} {b : Fin n} (hp : s.Proper maxraftstate)
    (hs : s.step maxraftstate (.restart b) = some s') :
    s'.replica = Function.update s.replica b
      ⟨.startKVServer (s.replica b).disk.2, (s.replica b).disk.1, (s.replica b).disk⟩ := by
  have hrest := Cluster.atRest_of_reach (System.reach_raft hp)
  cases System.Step.of_step hs with
  | restart hr hkv =>
    have ht := Cluster.Trans.of_step hr
    have hsnap := ht.restart_snap hrest
    obtain ⟨hrec, hstart⟩ := ht.service_restart
    refine replica_update (fun a ha ↦ ⟨by rw [hkv, Function.update_of_ne ha], ?_⟩) ?_
    · generalize s'.raft = raft' at ht
      cases ht
      exact (Cluster.setNode_of_ne s.raft _ ha) ▸ ⟨rfl, rfl, rfl, rfl⟩
    · simp only [replica, hkv, Function.update_self, hrec, lastIndex_nil, hstart, hsnap,
        ht.snapshot_eq hrest b hsnap, KVServer.startKVServer_plain,
        (hrest b).2.onDisk.snapshot_eq]

variable [NeZero n]

/-- **The service follows every deed**, up to the commits that it may still have to make. -/
theorem Above.step (h : Above δ σ) (hb : Below δ.system.raft.hist L σ)
    (hL : IsCommitLog δ.system.raft.hist L) (hp : δ.system.Proper maxraftstate)
    (hp' : δ'.system.Proper maxraftstate) (hd : Deployment.Step maxraftstate δ deed δ') :
    ∃ σ', σ.Runs maxraftstate σ' ∧ Above δ' σ' ∧ Below δ'.system.raft.hist L σ' := by
  have hcall : ∀ c, (σ.clerk c).call = (δ.client c).call := fun c ↦ by rw [h.clerk]
  have hwait : ∀ c, (σ.clerk c).waiting = (δ.client c).waiting := fun c ↦ by rw [h.clerk]
  have hseq : ∀ c, (σ.clerk c).seqNum = (δ.client c).seqNum := fun c ↦ by rw [h.clerk]
  cases hd with
  | system hin hs =>
    obtain ⟨σ', hrun, ⟨h1, h2, h3⟩, hrep, hb'⟩ := Follows.inner h.replica hb hL hp hp' hin hs
    refine ⟨σ', hrun, ⟨?_, fun c ↦ ?_, h3.trans h.requests, hrep⟩, hb'⟩
    · rw [Past.calls, h1]
      exact h.calls
    · rw [h2]
      exact h.clerk c
  | @invoke c call hc =>
    refine ⟨_, Service.runs_of_step _ (Service.step_invoke call ((hcall c).trans hc)),
      ⟨?_, ?_, h.requests, h.replica⟩, hb.congr rfl rfl rfl rfl⟩
    · rw [Past.calls, List.map_append, hseq]
      exact congrArg (· ++ [_]) h.calls
    · rw [h.clerk c]
      exact h.clerk_update c { δ.client c with call := some call }
  | @send c call hc hw =>
    refine ⟨_, Service.runs_of_step _ (Service.step_send (δ.client c).leader ((hcall c).trans hc)
      ((hwait c).trans hw)), ⟨h.calls, ?_, ?_, h.replica⟩, hb.congr rfl rfl rfl rfl⟩
    · rw [h.clerk c, h.requests]
      exact h.clerk_update c { δ.client c with waiting := some δ.requests.length }
    · rw [h.requests, hseq]
  | @lose c hw =>
    refine ⟨_, Service.runs_of_step _ (Service.step_lose ((hwait c).trans_ne hw)),
      ⟨h.calls, ?_, h.requests, h.replica⟩, hb.congr rfl rfl rfl rfl⟩
    rw [h.clerk c]
    exact h.clerk_update c
      { δ.client c with waiting := none, leader := (δ.client c).leader + 1 }
  | @retry c call r rq reply leader hc hw hr hpr hv =>
    have hrun : σ.Runs maxraftstate _ := Service.runs_of_step _ (Service.step_reply
      ((hcall c).trans hc) ((hwait c).trans hw) (h.requests ▸ hr) hpr)
    rw [hv] at hrun
    refine ⟨_, hrun, ⟨h.calls, ?_, h.requests, h.replica⟩, hb.congr rfl rfl rfl rfl⟩
    rw [h.clerk c]
    exact h.clerk_update c { δ.client c with waiting := none, leader := leader }
  | @reply c call r rq reply v hc hw hr hpr hv =>
    have hrun : σ.Runs maxraftstate _ := Service.runs_of_step _ (Service.step_reply
      ((hcall c).trans hc) ((hwait c).trans hw) (h.requests ▸ hr) hpr)
    rw [hv] at hrun
    refine ⟨_, hrun, ⟨?_, ?_, h.requests, h.replica⟩, hb.congr rfl rfl rfl rfl⟩
    · rw [Past.calls, List.map_append, hseq]
      exact congrArg (· ++ [_]) h.calls
    · rw [h.clerk c]
      exact h.clerk_update c ⟨⟨(δ.client c).seqNum + 1, none, none⟩, (δ.client c).leader⟩
  | @deliver r rq system hr hpr hs =>
    obtain rfl := Option.some_inj.mp hs
    have hrep : (System.setServer δ.system rq.server
        ((δ.system.server rq.server).handle rq.op)).replica = _ :=
      System.replica_setKV rfl (Follows.sameView_of_eq rfl)
    refine ⟨_, Service.runs_of_step _ (Service.step_deliver (h.requests ▸ hr) hpr),
      ⟨h.calls, h.clerk, ?_, ?_⟩, hb.congr rfl rfl rfl rfl⟩
    · rw [h.requests, h.replica]
      rfl
    · rw [hrep, h.replica]
      simp only [Service.setKV, Service.setReplica, h.replica]
      rfl
  | @answer r k rq hd reply hr hpr hh hs =>
    have hh' : (σ.replica rq.server).kv.handlers[k]? = some hd := by
      rw [h.replica]
      exact hh
    refine ⟨_, Service.runs_of_step _ (Service.step_answer (h.requests ▸ hr) hpr hh' hs),
      ⟨h.calls, h.clerk, ?_, h.replica⟩, hb.congr rfl rfl rfl rfl⟩
    rw [h.requests]
  | @restart a system hs =>
    refine ⟨σ.restart a, Service.runs_of_step (.restart a) rfl, ⟨h.calls, h.clerk, ?_, ?_⟩, ?_⟩
    · rw [← h.requests]
      rfl
    · rw [System.replica_restart hp hs, ← h.replica]
      rfl
    · cases System.Step.of_step hs with
      | restart hr hkv =>
        have ht := Cluster.Trans.of_step hr
        obtain ⟨evs, hevs, -⟩ := ht.hist_cases
        refine hb.advance evs hevs (fun b i T c he ↦ ?_) rfl rfl (fun b i x rf he ↦ ?_)
          (hb.applied.mono (hevs ▸ List.subset_append_left ..))
        · exact (ht.started_cases he).resolve_right (by simp)
        · exact hb.taken b i x rf ((ht.cut_cases he).resolve_right (by simp))

/-- **A step of the simulation**: the service follows, and commits what is new. -/
theorem Refines.step (h : Refines δ σ) (hp : δ.system.Proper maxraftstate)
    (hp' : δ'.system.Proper maxraftstate) (hd : Deployment.Step maxraftstate δ deed δ') :
    ∃ σ', σ.Runs maxraftstate σ' ∧ Refines δ' σ' := by
  obtain ⟨L, hL, hb⟩ := h.below
  obtain ⟨σ₁, hrun, habove, hbelow⟩ := h.above.step hb hL hp hp' hd
  have hraft := System.reach_raft hp'
  obtain ⟨g, hg, -⟩ := Cluster.rel_of_reach (fun _ _ _ h ↦ h.1) hraft
  have hsnap := Cluster.snapInv_of_reach hraft
  obtain ⟨L', hL'⟩ := Cluster.Rel.exists_commitLog hg hsnap
  have hsub : δ.system.raft.hist ⊆ δ'.system.raft.hist := by
    intro e he
    rcases hd.system_cases with hsame | ⟨act, hs, -⟩
    · rwa [hsame]
    · rcases (System.Step.of_step hs).raft_cases with hsame | ⟨act', hr, -⟩
      · rwa [hsame]
      · exact (Cluster.Trans.of_step hr).hist_subset he
  obtain ⟨more, rfl⟩ := hL.grows hL' hsub
  obtain ⟨log, pool, hrun', hbelow'⟩ :=
    hbelow.commitAll maxraftstate hg hsnap (Cluster.originInv_of_reach hraft) more hL'
  exact ⟨_, hrun.append hrun', ⟨habove.calls, habove.clerk, habove.requests, habove.replica⟩,
    L ++ more, hL', hbelow'⟩

omit [Labgob (Saved n Op)] in
theorem refines_init : Refines (Deployment.init : Deployment n) (Service.init : Service n) := by
  refine ⟨⟨rfl, fun _ ↦ rfl, rfl, ?_⟩, [], fun i e ↦ ?_, rfl, ?_, Or.inl rfl, [], rfl, ?_, ?_⟩
  · funext a
    exact congrArg (fun kv ↦ Replica.mk kv 0 (0, [])) (KVServer.startKVServer_plain []).symm
  · simp [CommittedAt, Deployment.init, System.init, Cluster.init]
  · simp [Deployment.init, System.init, Cluster.init]
  · simp
  · simp [Deployment.init, System.init, Cluster.init]

/-- **The deployment refines the service.** -/
theorem refines_of_reach
    (h : (Deployment.machine n maxraftstate).Reach
      (fun δ deed δ' ↦ δ'.system.raft.MajorityBacked ∧ δ.TakesOldest deed) δ) :
    ∃ σ, (Service.machine n maxraftstate).Reach (fun _ _ _ ↦ True) σ ∧ Refines δ σ := by
  have hproper : ∀ {δ : Deployment n}, (Deployment.machine n maxraftstate).Reach
      (fun δ deed δ' ↦ δ'.system.raft.MajorityBacked ∧ δ.TakesOldest deed) δ →
      δ.system.Proper maxraftstate := fun h ↦
    Deployment.reach_system (fun _ _ _ _ hp hold ↦ ⟨hp.1, hold hp.2⟩) h
  refine h.simulate refines_init fun δ deed δ' σ hr hs hp _ hR ↦ ?_
  exact hR.step (hproper hr) (hproper (hr.step hs hp)) (.of_step hs)

/-! ## Without snapshots -/

/-- No server takes a snapshot, and none is on its way. -/
structure System.Quiet (s : System n) : Prop where
  /-- No call of `Snapshot` is pending. -/
  pending : ∀ a, (s.server a).snapshots = []
  /-- None was made. -/
  cut : ∀ b i data rf, .cut b i data rf ∉ s.raft.hist
  /-- So Raft has no snapshots. -/
  raft : s.raft.QuietInv

omit [NeZero n] in
/-- With `maxraftstate = -1` the size check does nothing. -/
theorem System.Quiet.step {s s' : System n} {act : Act n} (h : s.Quiet) (hsnap : s.raft.SnapInv)
    (hs : System.Step (-1) s s' act) : s'.Quiet := by
  -- it is enough to look at the place where something happens
  have hone : ∀ {b : Fin n} {kv : KVServer}, s'.server = Function.update s.server b kv →
      kv.snapshots = [] → ∀ a, (s'.server a).snapshots = [] := by
    intro b kv hkv hnil a
    rw [hkv]
    by_cases ha : a = b
    · rw [ha, Function.update_self, hnil]
    · rw [Function.update_of_ne ha, h.pending a]
  have hraft : ∀ {act' : Action n Op}, s.raft.step act' = some s'.raft →
      (∀ b i data, act' ≠ .snapshot b i data) →
      (∀ b i data rf, .cut b i data rf ∉ s'.raft.hist) ∧ s'.raft.QuietInv := by
    intro act' hr hne
    have ht := Cluster.Trans.of_step hr
    exact ⟨fun b i data rf he ↦ h.cut b i data rf ((ht.cut_cases he).resolve_right (hne b i data)),
      h.raft.step hsnap h.cut ht⟩
  cases hs with
  | raft hint hr hkv =>
    obtain ⟨h1, h2⟩ := hraft hr (by rintro b i data rfl; simp [internal] at hint)
    exact ⟨by rw [hkv]; exact h.pending, h1, h2⟩
  | @handle b op hr hkv => exact ⟨hone hkv (h.pending b), by rw [hr]; exact h.cut, hr ▸ h.raft⟩
  | @start b k hd isLeader kv hh hst hr hkv =>
    obtain ⟨-, -, -, rfl⟩ := KVServer.started_spec hst
    obtain ⟨h1, h2⟩ := hraft hr (by simp)
    exact ⟨hone hkv (h.pending b), h1, h2⟩
  | @work b task kv hw hr hkv =>
    refine ⟨hone hkv ?_, by rw [hr]; exact h.cut, hr ▸ h.raft⟩
    cases hw with
    | take | read | timeout | leave | notify => exact h.pending b
    | snapshot =>
      rw [← h.pending b]
      change ((s.server b).decodeSnapshot _).snapshots = _
      rw [KVServer.decodeSnapshot]
      split
      · rfl
      · split <;> rfl
    | command =>
      rw [← h.pending b, KVServer.applyCommand]
      split <;> rfl
  | @receive b msg kv hm hk hr hkv | @receiveSnap b k msg kv hm hk hr hkv =>
    obtain ⟨-, rfl⟩ := KVServer.receive_spec hk
    obtain ⟨h1, h2⟩ := hraft hr (by simp)
    exact ⟨hone hkv (h.pending b), h1, h2⟩
  | @check b size kv hc hr hkv =>
    refine ⟨hone hkv ?_, by rw [hr]; exact h.cut, hr ▸ h.raft⟩
    obtain ⟨-, rfl | ⟨hne, -⟩⟩ := KVServer.check_spec hc
    · exact h.pending b
    · exact absurd rfl hne
  | @snapshot b k index data hp =>
    rw [h.pending b] at hp
    simp at hp
  | @restart b hr hkv =>
    obtain ⟨h1, h2⟩ := hraft hr (by simp)
    refine ⟨hone hkv ?_, h1, h2⟩
    rw [KVServer.startKVServer, KVServer.decodeSnapshot]
    split
    · rfl
    · split <;> rfl

omit [NeZero n] in
theorem System.quiet_of_reach {P : System n → Act n → System n → Prop} {s : System n}
    (h : (machine n (-1)).Reach P s) : s.Quiet := by
  refine h.invariant (I := Quiet) ⟨fun a ↦ ?_, ?_, ?_, ?_⟩ fun s act s' hr hi hs _ ↦
    hi.step (Cluster.snapInv_of_reach (Deployment.reach_cluster hr)) (.of_step hs)
  · rfl
  · simp [machine, init, Cluster.init]
  · exact fun _ ↦ rfl
  · exact fun _ ↦ List.Pairwise.nil

/-! ## Linearizability -/

/-- What is asked of a run: elections are won by majorities, as they always are among at most three
servers; and the reader of `applyCh` takes the oldest message on offer, as it always does if there
are no snapshots. -/
def Deployment.Sound (maxraftstate : Int) (δ : Deployment n) (deed : Deed n) (δ' : Deployment n) :
    Prop :=
  (n ≤ 3 ∨ δ'.system.raft.MajorityBacked) ∧ (maxraftstate = -1 ∨ δ.TakesOldest deed)

theorem Deployment.reach_proper (h : (machine n maxraftstate).Reach (Sound maxraftstate) δ) :
    (machine n maxraftstate).Reach
      (fun δ deed δ' ↦ δ'.system.raft.MajorityBacked ∧ δ.TakesOldest deed) δ := by
  have hsystem : ∀ {δ : Deployment n}, (machine n maxraftstate).Reach (Sound maxraftstate) δ →
      (System.machine n maxraftstate).Reach (fun _ _ _ ↦ True) δ.system :=
    fun h ↦ reach_system (fun _ _ _ _ _ _ ↦ trivial) h
  refine h.strengthen fun δ deed δ' hr hs hp ↦ ⟨?_, ?_⟩
  · rcases hp.1 with hn | hm
    · exact (Cluster.majorityBacked_of_reach ((reach_cluster (hsystem (hr.step hs hp))).mono
        fun _ _ _ _ ↦ Or.inl hn)).2
    · exact hm
  · rcases hp.2 with rfl | hold
    · have hquiet := System.quiet_of_reach (hsystem hr)
      cases deed with
      | system act =>
        cases act with
        | receive a => exact hquiet.raft.takesOldest (.send a)
        | receiveSnap a k => exact hquiet.raft.takesOldest (.sendSnap a k)
        | raft | handle | start | work | check | snapshot | restart => trivial
      | invoke | send | lose | reply | deliver | answer | restart => trivial
    · exact hold

/-- **The program is linearizable.**  Take a run of clerks, key-value servers, Raft servers and the
networks between them, whatever is lost, delayed, repeated by a clerk or crashes in it, whose
elections are won by majorities, as they always are among three servers, and in which the reader of
`applyCh` takes the oldest message on offer, as it always does without snapshots (`Sound`).  The
calls of the clerks have an order that explains every answer and respects real time; and the values
this order ends with are those that the committed commands of Raft lead to. -/
theorem deployment_linearizable
    (h : (Deployment.machine n maxraftstate).Reach (Deployment.Sound maxraftstate) δ) :
    ∃ l ops, Linearizes kvObject δ.hist l ∧
      (∀ i op, ops[i]? = some op ↔
        ∃ T, CommittedAt δ.system.raft.hist (i + 1) ⟨T, some op⟩) ∧
      kvObject.after kvObject.init l = (replay ops).value := by
  obtain ⟨σ, hσ, hR⟩ := refines_of_reach (Deployment.reach_proper h)
  have hpast := (Service.inv_of_reach hσ).past
  obtain ⟨P⟩ := hpast.nonempty_points
  obtain ⟨L, hL, hb⟩ := hR.below
  refine ⟨P.order, σ.log, hR.above.calls ▸ hpast.linearizes P, fun i op ↦ ?_,
    (hpast.legal_order P).2⟩
  have hlog := congrArg (·[i]?) hb.log
  simp only [List.getElem?_map] at hlog
  constructor
  · intro hop
    rw [hop] at hlog
    obtain ⟨⟨T, c⟩, he, hc⟩ := Option.map_eq_some_iff.mp hlog
    obtain rfl : c = some op := hc
    exact ⟨T, (hL i _).mp he⟩
  · rintro ⟨T, hT⟩
    rw [(hL i _).mpr hT] at hlog
    obtain ⟨op', hop', heq⟩ := Option.map_eq_some_iff.mp hlog.symm
    rw [hop', ← Option.some_inj.mp heq]

end

/-! ## A run -/

namespace Deployment

instance (maxraftstate : Int) (δ : Deployment n) (deed : Deed n) (δ' : Deployment n) :
    Decidable (Sound maxraftstate δ deed δ') :=
  inferInstanceAs (Decidable (_ ∧ _))

/-- Server `1` of three is elected.  Clerk `7` sends its `Put` to server `0`, which does not lead,
and then to server `1`, which commits it with server `0`, applies it and answers. -/
def firstPut : List (Deed 3) :=
  [.system (.raft (.tick 1)), .system (.raft (.askVote 0 2)), .system (.raft (.deliver 0)),
    .system (.raft (.answer 0)), .invoke 7 (.put [120] [1]), .send 7, .deliver 0,
    .system (.start 0 0), .system (.work 0 (.leave 0)), .answer 0, .reply 7, .send 7, .deliver 1,
    .system (.start 1 0), .system (.raft (.replicate 0)), .system (.raft (.deliver 1)),
    .system (.raft (.answer 1)), .system (.raft (.wake 1)), .system (.raft (.collect 1)),
    .system (.receive 1), .system (.work 1 .process), .system (.work 1 .notify),
    .system (.work 1 (.take 0)), .system (.work 1 (.leave 0)), .answer 1, .reply 7]

end Deployment

theorem deployment_linearizable_firstPut :
    ∃ δ : Deployment 3, (Deployment.machine 3 1000).Reach (Deployment.Sound 1000) δ ∧
      δ.hist = [.invoke (7, 1) (.put [120] [1]), .respond (7, 1) []] ∧
      ∃ l ops, Linearizes kvObject δ.hist l ∧
        (∀ i op, ops[i]? = some op ↔
          ∃ T, CommittedAt δ.system.raft.hist (i + 1) ⟨T, some op⟩) ∧
        kvObject.after kvObject.init l = (replay ops).value := by
  obtain ⟨δ, hδ, hist⟩ := Machine.exists_reach_of_exec (M := Deployment.machine 3 1000)
    (P := Deployment.Sound 1000)
    (Q := fun δ ↦ δ.hist = [.invoke (7, 1) (.put [120] [1]), .respond (7, 1) []])
    Deployment.firstPut (by decide +kernel)
  exact ⟨δ, hδ, hist, deployment_linearizable hδ⟩

end DistLabs.KV
