import DistLabs.Raft.Safety

/-!
# Where entries come from

An entry enters the cluster in `Start`, which is on record with its index, its term and its command.
From there it is copied: into requests, from requests into other logs, and along with a server's
state into the record of what that server committed or compacted.  Wherever an entry is found, there
is a `Start` on record that put it at this very index.

`Trans.each` is the rule behind it.  A property of entries and their indexes that holds of what is
started holds of every entry in every log, because handlers make up no entries of their own.
-/

set_option autoImplicit false

namespace DistLabs

variable {n : Nat} {Cmd : Type}

/-! ## The entries of a log -/

/-- Every entry of the log beyond the boundary has the property, at its index. -/
def Raft.Each (P : Nat → Entry Cmd → Prop) (rf : Raft n Cmd) : Prop :=
  ∀ i e, rf.snapIndex < i → rf.get i = some e → P i e

/-- Every entry of a request has the property, at the index it is meant for. -/
def AppendEntriesArgs.Each (P : Nat → Entry Cmd → Prop) (args : AppendEntriesArgs n Cmd) : Prop :=
  ∀ j e, args.entries[j]? = some e → P (args.prevLogIndex + 1 + j) e

namespace Raft

variable {P Q : Nat → Entry Cmd → Prop} {rf rf' : Raft n Cmd}

theorem Each.mono (himp : ∀ i e, P i e → Q i e) (h : rf.Each P) : rf.Each Q :=
  fun i e hlt he ↦ himp i e (h i e hlt he)

/-- Only the log and its boundary matter. -/
theorem Each.congr (h : rf.Each P) (hlog : rf'.log = rf.log)
    (hsnap : rf'.snapIndex = rf.snapIndex) :
    rf'.Each P := by
  intro i e hlt he
  rw [hsnap] at hlt
  refine h i e hlt ?_
  rw [get_eq_some] at he ⊢
  rwa [hlog, hsnap] at he

/-- An entry is added at the end. -/
theorem Each.concat (h : rf.Each P) {x : Entry Cmd} (hlog : rf'.log = rf.log ++ [x])
    (hsnap : rf'.snapIndex = rf.snapIndex) (hx : P rf.logLength x) : rf'.Each P := by
  intro i e hlt he
  rw [get_eq_some, hlog, hsnap] at he
  rw [hsnap] at hlt
  rcases List.getElem?_concat_cases he.2 with hold | ⟨hlen, rfl⟩
  · exact h i e hlt (get_eq_some.mpr ⟨hlt.le, hold⟩)
  · rwa [show i = rf.logLength by rw [logLength]; omega]

/-- The boundary moves on, and what lies beyond it stays. -/
theorem Each.drop (h : rf.Each P) {b : Entry Cmd} {s : Nat} (hs : rf.snapIndex < s)
    (hlog : rf'.log = b :: rf.log.drop (s + 1 - rf.snapIndex)) (hsnap : rf'.snapIndex = s) :
    rf'.Each P := by
  intro i e hlt he
  rw [get_eq_some, hlog, hsnap] at he
  rw [hsnap] at hlt
  refine h i e (by omega) (get_eq_some.mpr ⟨by omega, ?_⟩)
  rw [← he.2, show i - s = i - s - 1 + 1 by omega, List.getElem?_cons_succ, List.getElem?_drop]
  congr 1
  omega

/-- Where the request is merged in, the log has not yet ended. -/
theorem merge_le_length {args : AppendEntriesArgs n Cmd} (hne : rf.log ≠ [])
    (hprev : args.prevLogIndex ≤ rf.snapIndex ∨
      ∃ prev, rf.get args.prevLogIndex = some prev ∧ prev.term = args.prevLogTerm) :
    max args.prevLogIndex rf.snapIndex + 1 - rf.snapIndex ≤ rf.log.length := by
  rcases hprev with hle | ⟨prev, hget, -⟩
  · have := List.length_pos_of_ne_nil hne
    omega
  · have hlt := get_lt_logLength hget
    have hle := (get_eq_some.mp hget).1
    rw [logLength] at hlt
    omega

/-- An entry of the merged log was in the log, or in the request at the same index. -/
theorem mergedLog_getElem? {args : AppendEntriesArgs n Cmd} (hne : rf.log ≠ [])
    (hprev : args.prevLogIndex ≤ rf.snapIndex ∨
      ∃ prev, rf.get args.prevLogIndex = some prev ∧ prev.term = args.prevLogTerm)
    {p : Nat} {e : Entry Cmd} (he : (rf.mergedLog args)[p]? = some e) :
    rf.log[p]? = some e ∨
      ∃ j, args.entries[j]? = some e ∧ args.prevLogIndex + 1 + j = rf.snapIndex + p := by
  have hlen := merge_le_length hne hprev
  rw [mergedLog] at he
  set q := max args.prevLogIndex rf.snapIndex + 1 - rf.snapIndex with hq
  rcases reconcile_cases (rf.log.drop q) (args.entries.drop (rf.snapIndex - args.prevLogIndex)) with
    ⟨hsame, -⟩ | ⟨j, -, hj, -, -, heq⟩
  · rw [hsame, List.take_append_drop] at he
    exact Or.inl he
  · rw [heq, ← List.append_assoc, ← List.take_add] at he
    rw [List.length_drop] at hj
    rcases Nat.lt_or_ge p (q + j) with hlt | hge
    · rw [List.getElem?_append_left (by rw [List.length_take]; omega), List.getElem?_take,
        if_pos hlt] at he
      exact Or.inl he
    · rw [List.getElem?_append_right (by rw [List.length_take]; omega), List.length_take,
        List.drop_drop, List.getElem?_drop] at he
      exact Or.inr ⟨_, he, by omega⟩

/-- A request is merged into the log. -/
theorem Each.merged (h : rf.Each P) {args : AppendEntriesArgs n Cmd} (hne : rf.log ≠ [])
    (hprev : args.prevLogIndex ≤ rf.snapIndex ∨
      ∃ prev, rf.get args.prevLogIndex = some prev ∧ prev.term = args.prevLogTerm)
    (hargs : args.Each P) (hlog : rf'.log = rf.mergedLog args)
    (hsnap : rf'.snapIndex = rf.snapIndex) : rf'.Each P := by
  intro i e hlt he
  rw [get_eq_some, hlog, hsnap] at he
  rw [hsnap] at hlt
  rcases mergedLog_getElem? hne hprev he.2 with hold | ⟨j, hj, hidx⟩
  · exact h i e hlt (get_eq_some.mpr ⟨hlt.le, hold⟩)
  · have := hargs j e hj
    rwa [hidx, Nat.add_sub_cancel' hlt.le] at this

end Raft

namespace Cluster

variable [Labgob (Saved n Cmd)] {σ σ' : Cluster n Cmd} {act : Action n Cmd}

/-- **Entries are started or copied.**  What holds of the entries of all logs and requests, and of
an entry that is started now, holds of the entries of all logs afterwards. -/
theorem Trans.each {P : Nat → Entry Cmd → Prop} (h : Trans σ act σ') (hσ : σ.AtRest)
    (hnode : ∀ a, (σ.node a).rf.Each P)
    (hcall : ∀ call ∈ σ.calls, ∀ k args reply, call.rpc = .append k args reply → args.Each P)
    (hstart : ∀ a i T c, .started a i T c ∈ σ'.hist → P i ⟨T, c⟩) (a : Fin n) :
    (σ'.node a).rf.Each P := by
  have hone : ∀ {b : Fin n} {nd : Node n Cmd}, nd.rf.Each P →
      ((σ.setNode b nd).node a).rf.Each P := fun hb ↦
    forall_setNode (P := fun _ nd ↦ nd.rf.Each P) hb hnode a
  cases h with
  | askVote | replicateIdle | replicateAppend | replicateInstall | lose | startRefused
  | snapshotOld => exact hnode a
  | tick | elect | wake | send | sendSnap => exact hone ((hnode _).congr rfl rfl)
  | @deliverVote _ _ call _ _ _ _ _ hr =>
    rcases (Raft.requestVote_spec hr).2 with ⟨-, rfl⟩ | ⟨-, -, -, -, rfl⟩ <;>
      exact hone ((hnode call.callee).congr (by simp [Raft.persist]) (by simp [Raft.persist]))
  | @deliverAppend _ k call args _ _ hc hr hrf =>
    rcases Raft.appendEntries_spec hrf with ⟨rfl, -⟩ | ⟨-, -, -, hprev, w, rf₁, hrf₁, rfl⟩
    · exact hone ((hnode call.callee).congr (by simp) (by simp))
    · rcases hrf₁ with ⟨rfl, -⟩ | rfl
      · exact hone ((hnode call.callee).congr (by simp) (by simp))
      · refine hone ((hnode call.callee).merged (hσ call.callee).2.log_ne hprev
          (hcall call (List.mem_of_getElem? hc) k args none hr) rfl ?_)
        simp [Raft.persist]
  | @deliverInstall _ _ call args _ _ _ _ _ hrf =>
    rcases (Raft.installSnapshot_spec hrf).2 with ⟨-, rfl, -⟩ | ⟨-, hlt, hcase⟩
    · exact hone ((hnode call.callee).congr (by simp) (by simp))
    · rcases hcase with ⟨-, -, rfl⟩ | ⟨-, -, rfl⟩
      · exact hone ((hnode call.callee).drop hlt rfl rfl)
      · exact hone ((hnode call.callee).drop hlt rfl rfl)
  | @answerVote _ _ call | @countVote _ _ call =>
    exact hone ((hnode call.caller).congr (by simp) (by simp))
  | @answerAppend _ _ call _ _ _ _ _ _ hr =>
    rcases Raft.singleAppendReply_spec hr with rfl | ⟨-, -, -, -, next, v, -, -, rfl⟩ |
      ⟨-, -, -, m, next, rf₁, -, -, rfl, rfl | ⟨M, e, c, -, -, -, -, -, -, rfl⟩⟩
    · exact hone ((hnode call.caller).congr (by simp) (by simp))
    all_goals exact hone ((hnode _).congr rfl rfl)
  | @answerInstall _ _ call _ _ _ _ _ _ hr =>
    rcases Raft.helpInstallReply_spec hr with rfl | ⟨-, m, next, -, -, rfl⟩
    · exact hone ((hnode call.caller).congr (by simp) (by simp))
    · exact hone ((hnode _).congr rfl rfl)
  | @start b c =>
    exact hone ((hnode b).concat rfl rfl (hstart b _ _ c (by simp)))
  | @snapshot b index data e hm hlt he =>
    refine hone ((hnode b).drop (b := ⟨e.term, none⟩) hlt ?_ rfl)
    rw [show index + 1 - (σ.node b).rf.snapIndex = index - (σ.node b).rf.snapIndex + 1 by omega]
    rfl
  | collect _ hk =>
    obtain ⟨rfl, -⟩ := Raft.guardKick_spec hk
    exact hone ((hnode _).congr rfl rfl)
  | restart hmake =>
    obtain rfl := hσ.make hmake
    exact hone ((hnode _).congr rfl rfl)

/-! ## Every entry was started -/

/-- Some call of `Start` has put `e` at index `i`. -/
def Started (hist : List (Event n Cmd)) (i : Nat) (e : Entry Cmd) : Prop :=
  ∃ a, .started a i e.term e.command ∈ hist

/-- The servers on record, as they were when they committed or compacted, had started entries. -/
def EventStarted (hist : List (Event n Cmd)) : Event n Cmd → Prop
  | .committed _ rf => rf.Each (Started hist)
  | .cut _ _ _ rf => rf.Each (Started hist)
  | _ => True

/-- Every entry anywhere was started. -/
structure OriginInv (σ : Cluster n Cmd) : Prop where
  /-- Those of the logs. -/
  node : ∀ a, (σ.node a).rf.Each (Started σ.hist)
  /-- Those in requests. -/
  request : ∀ call ∈ σ.calls, ∀ k args reply, call.rpc = .append k args reply →
    args.Each (Started σ.hist)
  /-- Those on record. -/
  event : ∀ e ∈ σ.hist, EventStarted σ.hist e

namespace OriginInv

theorem step (h : Trans σ act σ') (hσ : σ.AtRest) (hi : σ.OriginInv) : σ'.OriginInv := by
  have hmono : ∀ i e, Started σ.hist i e → Started σ'.hist i e :=
    fun i e ⟨a, ha⟩ ↦ ⟨a, h.hist_subset ha⟩
  have hnode := h.each (P := Started σ'.hist) hσ (fun a ↦ (hi.node a).mono hmono)
    (fun call hc k args reply hr j e he ↦ hmono _ _ (hi.request call hc k args reply hr j e he))
    fun a i T c hs ↦ ⟨a, hs⟩
  refine ⟨hnode, fun call' hmem k args reply hr' ↦ ?_, fun e he ↦ ?_⟩
  · obtain ⟨c, hc'⟩ := List.mem_iff_getElem?.mp hmem
    rcases h.call_cases hc' with ⟨call, hc, hk⟩ | ⟨-, hreq, -⟩ | ⟨call, -, hc, hrep, -⟩
    · exact fun j e he ↦ hmono _ _ (hi.request call (List.mem_of_getElem? hc) k args reply
        (hk.rpc.symm.trans hr') j e he)
    · cases hreq with
      | vote | install => simp at hr'
      | @append k' w args' hw ha =>
        obtain ⟨-, rfl, -⟩ : k' = k ∧ args' = args ∧ none = reply := by simpa using hr'
        obtain ⟨-, -, -, ⟨prev, hprev, -⟩, hent, -⟩ := Raft.singleAppend_append ha
        have hle := (Raft.get_eq_some.mp hprev).1
        intro j e he
        rw [hent, List.getElem?_drop] at he
        refine hmono _ _ (hi.node w.server _ e (by omega) (Raft.get_eq_some.mpr ⟨by omega, ?_⟩))
        rw [← he]
        congr 1
        omega
    · rw [hr'] at hrep
      cases hrep with
      | append hr =>
        exact fun j e he ↦ hmono _ _
          (hi.request call (List.mem_of_getElem? hc) k args none hr j e he)
  · rcases h.mem_hist he with hold | hnew
    · have := hi.event e hold
      cases e with
      | committed | cut => exact Raft.Each.mono hmono this
      | _ => trivial
    · cases hnew with
      | cut => exact (hi.node _).mono hmono
      | committed hc hw hr hrf hlt h' => exact h' ▸ hnode _
      | candidate | counted | elected | started | received | restarted => trivial

end OriginInv

theorem originInv_of_reach {P : Cluster n Cmd → Action n Cmd → Cluster n Cmd → Prop}
    (h : (machine n Cmd).Reach P σ) : σ.OriginInv := by
  refine h.invariant (I := OriginInv) ?_ fun σ act σ' hr hi hs _ ↦
    hi.step (Trans.of_step hs) (atRest_of_reach hr)
  refine ⟨fun a i e hlt he ↦ ?_, by simp [machine, init], by simp [machine, init]⟩
  obtain ⟨-, he⟩ := Raft.get_eq_some.mp he
  have hlen := (List.getElem?_eq_some_iff.mp he).1
  simp only [machine, init, Raft.fresh, List.length_singleton] at hlt hlen
  omega

end Cluster

end DistLabs
