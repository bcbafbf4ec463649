import DistLabs.Raft.Delivery
import DistLabs.Raft.Provenance
import DistLabs.Raft.Simulation

/-!
# What clients of Raft rely on

The three properties a service built on Raft needs, for every run in which elections are won by
majorities: nothing else is assumed about the network, the schedule, crashes, or which snapshots are
taken and sent.

* `state_machine_safety`: no two servers deliver different commands at one index;
* `leader_completeness`: what a leader has committed is held by every later leader;
* `real_time_order`: an entry that is started after an index was delivered is not delivered at that
  index or before it.

All three are read off the ledger the cluster is related to: what is delivered is committed there,
and committed prefixes agree.
-/

set_option autoImplicit false

namespace DistLabs

variable {n : Nat} {Cmd : Type}

open Ledger (endTerm Agree)

deriving instance DecidableEq for Raft, Event

/-! ## Committed entries -/

/-- The ledger has committed `e` at index `i`. -/
def Committed (g : RaftLedger n Cmd) (i : Nat) (e : Entry Cmd) : Prop :=
  ∃ U k, (U, k) ∈ g.commits ∧ 0 < i ∧ i ≤ k + 1 ∧ (g.leaderLog U)[i - 1]? = some e

theorem Committed.pos {g : RaftLedger n Cmd} {i : Nat} {e : Entry Cmd} (h : Committed g i e) :
    0 < i := by
  obtain ⟨-, -, -, h0, -⟩ := h
  exact h0

theorem Committed.unique {g : RaftLedger n Cmd} (hi : g.Inv) {i : Nat} {e e' : Entry Cmd}
    (h : Committed g i e) (h' : Committed g i e') : e = e' := by
  obtain ⟨U, k, hc, h0, hk, he⟩ := h
  obtain ⟨U', k', hc', -, hk', he'⟩ := h'
  have hag := hi.commit_agree hc hc' (i := i - 1) (by omega) (by omega)
  rw [he, he', Option.some_inj] at hag
  exact hag

namespace Cluster

variable {σ : Cluster n Cmd} {g : RaftLedger n Cmd}

theorem committed_of_received (h : Rel σ g) {a : Fin n} {i : Nat} {c : Option Cmd} {T : Int}
    (hr : .received a (.command i c T) ∈ σ.hist) : Committed g i ⟨T, c⟩ :=
  h.event _ hr

/-- The entries a snapshot was taken from are committed. -/
theorem committed_of_takenFrom (h : Rel σ g) {s i : Nat} {data : Bytes} {e : Entry Cmd}
    (ht : TakenFrom σ.hist s data i e) : Committed g i e := by
  induction ht with
  | held hcut hlt hle he =>
    obtain ⟨U, k, hc, hk, hall⟩ := h.event _ hcut
    obtain ⟨e', he', hl⟩ := hall _ hlt hle
    rw [he, Option.some_inj] at he'
    exact ⟨U, k, hc, by omega, by omega, he' ▸ hl⟩
  | older _ _ ih => exact ih

/-- The servers as they were when `a` had moved its commit index. -/
def commitments (a : Fin n) (hist : List (Event n Cmd)) : List (Raft n Cmd) :=
  hist.filterMap fun
    | .committed b rf => if b = a then some rf else none
    | _ => none

theorem mem_commitments {a : Fin n} {hist : List (Event n Cmd)} {rf : Raft n Cmd} :
    rf ∈ commitments a hist ↔ .committed a rf ∈ hist := by
  rw [commitments, List.mem_filterMap]
  constructor
  · rintro ⟨e, he, heq⟩
    cases e <;> simp at heq
    rwa [← heq.1, ← heq.2]
  · exact fun h ↦ ⟨_, h, by simp⟩

/-! ## State machine safety -/

variable [Labgob (Saved n Cmd)]

/-- With at most three servers a majority is behind every election anyway. -/
theorem reach_majorityBacked
    (h : (machine n Cmd).Reach (fun _ _ σ' ↦ n ≤ 3 ∨ σ'.MajorityBacked) σ) :
    (machine n Cmd).Reach (fun _ _ σ' ↦ σ'.MajorityBacked) σ := by
  refine h.strengthen fun σ act σ' hr hs hp ↦ ?_
  rcases hp with hn | hm
  · exact (majorityBacked_of_reach ((hr.step hs (Or.inl hn)).mono fun _ _ _ _ ↦ Or.inl hn)).2
  · exact hm

/-- **State machine safety.**  In a run whose elections are won by majorities, which is every run of
at most three servers, no two commands are ever delivered at the same index, by whatever servers and
incarnations of them. -/
theorem state_machine_safety
    (h : (machine n Cmd).Reach (fun _ _ σ' ↦ n ≤ 3 ∨ σ'.MajorityBacked) σ) {a b : Fin n} {i : Nat}
    {c d : Option Cmd} {T U : Int} (hc : .received a (.command i c T) ∈ σ.hist)
    (hd : .received b (.command i d U) ∈ σ.hist) : c = d := by
  obtain ⟨g, hg, -⟩ := rel_of_reach (fun _ _ _ hm ↦ hm) (reach_majorityBacked h)
  have := (committed_of_received hg hc).unique hg.inv (committed_of_received hg hd)
  exact congrArg Entry.command this

/-- Both servers `0` and `1` deliver the first command. -/
theorem state_machine_safety_firstCommit :
    ∃ σ : Cluster 3 Nat,
      (machine 3 Nat).Reach (fun _ _ σ' ↦ 3 ≤ 3 ∨ σ'.MajorityBacked) σ ∧
      .received 0 (.command 1 (some 10) 1) ∈ σ.hist ∧
      .received 1 (.command 1 (some 10) 1) ∈ σ.hist ∧
      ∀ c T, .received 1 (.command 1 c T) ∈ σ.hist → some 10 = c := by
  obtain ⟨σ, hσ, h0, h1⟩ := Machine.exists_reach_of_exec (M := machine 3 Nat)
    (P := fun _ _ σ' ↦ 3 ≤ 3 ∨ σ'.MajorityBacked)
    (Q := fun σ ↦ .received 0 (.command 1 (some 10) 1) ∈ σ.hist ∧
      .received 1 (.command 1 (some 10) 1) ∈ σ.hist)
    (firstCommit ++ [.wake 1, .collect 1, .send 1, .wake 0, .collect 0, .send 0])
    (by decide +kernel)
  exact ⟨σ, hσ, h0, h1, fun c T hc ↦ state_machine_safety hσ h0 hc⟩

/-! ## Real-time order -/

/-- **Real-time order.**  If `Start` returned `(i, T, true)` after a message with index `m.index`
was delivered, and the entry of index `i` and term `T` is delivered later, then `i` is larger. -/
theorem real_time_order (h : (machine n Cmd).Reach (fun _ _ σ' ↦ σ'.MajorityBacked) σ)
    {before after : List (Event n Cmd)} {a b d : Fin n} {i : Nat} {T : Int} {c c' : Option Cmd}
    {m : ApplyMsg Cmd} (hist : σ.hist = before ++ .started a i T c :: after)
    (hm : .received b m ∈ before) (hd : .received d (.command i c' T) ∈ after) : m.index < i := by
  obtain ⟨g, hg, -⟩ := rel_of_reach (fun _ _ _ hm ↦ hm) h
  by_contra hle
  obtain ⟨U, k, e, hc, hk, he, hne⟩ := hg.realTime before after a i T c hist b m hm (by omega)
  have hdel : Committed g i ⟨T, c'⟩ := committed_of_received hg (a := d) (by simp [hist, hd])
  have := hdel.unique hg.inv ⟨U, k, hc, hdel.pos, hk, he⟩
  exact hne (this ▸ rfl)

/-- The first command is delivered, the second started, and then delivered too. -/
def secondCommit : List (Action 3 Nat) :=
  firstCommit ++ [.wake 1, .collect 1, .send 1, .start 0 (some 20), .replicate 1, .deliver 3,
    .answer 3, .wake 0, .collect 0, .send 0, .send 0]

theorem real_time_order_secondCommit :
    ∃ σ : Cluster 3 Nat, (machine 3 Nat).Reach (fun _ _ σ' ↦ σ'.MajorityBacked) σ ∧
      ∃ before after, σ.hist = before ++ .started 0 2 1 (some 20) :: after ∧
        .received 1 (.command 1 (some 10) 1) ∈ before ∧
        .received 0 (.command 2 (some 20) 1) ∈ after ∧ 1 < 2 := by
  obtain ⟨σ, hσ, hs, hb, ha⟩ := Machine.exists_reach_of_exec (M := machine 3 Nat)
    (P := fun _ _ σ' ↦ σ'.MajorityBacked)
    (Q := fun σ ↦ σ.hist[6]? = some (.started 0 2 1 (some 20)) ∧
      .received 1 (.command 1 (some 10) 1) ∈ σ.hist.take 6 ∧
      .received 0 (.command 2 (some 20) 1) ∈ σ.hist.drop 7)
    secondCommit (by decide +kernel)
  have hsplit : σ.hist = σ.hist.take 6 ++ .started 0 2 1 (some 20) :: σ.hist.drop 7 := by
    obtain ⟨hlt, hget⟩ := List.getElem?_eq_some_iff.mp hs
    rw [← hget, ← List.drop_eq_getElem_cons hlt, List.take_append_drop]
  exact ⟨σ, hσ, _, _, hsplit, hb, ha, real_time_order hσ hsplit hb ha⟩

/-! ## Leader completeness -/

/-- The server holds `e` at index `i` in its log, or has a snapshot that covers the index and was
taken from a log that held it. -/
def Holds (hist : List (Event n Cmd)) (rf : Raft n Cmd) (i : Nat) (e : Entry Cmd) : Prop :=
  rf.snapIndex < i ∧ rf.get i = some e ∨
  i ≤ rf.snapIndex ∧ TakenFrom hist rf.snapIndex rf.snapshot i e

omit [Labgob (Saved n Cmd)] in
/-- What a server holds at an index that is committed is the committed entry and no other, if that
is what its log has there. -/
theorem holds_iff (h : Rel σ g) (hs : σ.SnapInv) {rf : Raft n Cmd} {i : Nat} {e : Entry Cmd}
    (hcom : Committed g i e) (hsrc : Sourced σ.hist rf.snapIndex rf.snapshot)
    (hlog : rf.snapIndex < i → rf.get i = some e) (e' : Entry Cmd) :
    Holds σ.hist rf i e' ↔ e' = e := by
  constructor
  · rintro (⟨hlt, he⟩ | ⟨-, ht⟩)
    · exact Option.some_inj.mp (he.symm.trans (hlog hlt))
    · exact (committed_of_takenFrom h ht).unique h.inv hcom
  · rintro rfl
    rcases Nat.lt_or_ge rf.snapIndex i with hlt | hge
    · exact Or.inl ⟨hlt, hlog hlt⟩
    · obtain ⟨e₁, ht⟩ := hs.covers hsrc hcom.pos hge
      obtain rfl := (committed_of_takenFrom h ht).unique h.inv hcom
      exact Or.inr ⟨hge, ht⟩

/-- Some leader has moved its commit index to `i` or beyond, and held `e` there. -/
def CommittedAt (hist : List (Event n Cmd)) (i : Nat) (e : Entry Cmd) : Prop :=
  ∃ a rf, .committed a rf ∈ hist ∧ 0 < i ∧ i ≤ rf.commitIndex ∧ Holds hist rf i e

omit [Labgob (Saved n Cmd)] in
theorem CommittedAt.mono {hist hist' : List (Event n Cmd)} (hsub : hist ⊆ hist') {i : Nat}
    {e : Entry Cmd} (h : CommittedAt hist i e) : CommittedAt hist' i e := by
  obtain ⟨a, rf, hev, h0, hle, hlog | ⟨hsnap, ht⟩⟩ := h
  · exact ⟨a, rf, hsub hev, h0, hle, Or.inl hlog⟩
  · exact ⟨a, rf, hsub hev, h0, hle, Or.inr ⟨hsnap, ht.mono hsub⟩⟩

omit [Labgob (Saved n Cmd)] in
/-- What the record says is committed is what is committed on the ledger. -/
theorem committedAt_iff (h : Rel σ g) (hs : σ.SnapInv) {i : Nat} {e : Entry Cmd} :
    CommittedAt σ.hist i e ↔ Committed g i e := by
  constructor
  · rintro ⟨a, rf, hev, h0, hle, ⟨hlt, he⟩ | ⟨-, ht⟩⟩
    · obtain ⟨hpos, hcommit, hall⟩ := h.event _ hev
      obtain ⟨e', he', hl⟩ := hall i hlt hle
      obtain rfl := Option.some_inj.mp (he.symm.trans he')
      exact ⟨_, _, hcommit, h0, by omega, hl⟩
    · exact committed_of_takenFrom h ht
  · intro hcom
    obtain ⟨U, k, hc, h0, hk, he⟩ := id hcom
    obtain ⟨a, rf, hev, rfl, hci⟩ := h.recorded U k hc
    refine ⟨a, rf, hev, h0, by omega, (holds_iff h hs hcom (hs.event _ hev) fun hlt ↦ ?_) e
      |>.mpr rfl⟩
    obtain ⟨e', he', hl⟩ := (h.event _ hev).2.2 i hlt (by omega)
    rw [he', ← he, hl]

/-- **Leader completeness.**  Once a leader has moved its commit index to `i` or beyond, there is
one entry that it holds at `i`, and that every server leading in a later term holds there too. -/
theorem leader_completeness (h : (machine n Cmd).Reach (fun _ _ σ' ↦ σ'.MajorityBacked) σ)
    {a : Fin n} {rf : Raft n Cmd} (hev : .committed a rf ∈ σ.hist) {i : Nat} (h0 : 0 < i)
    (hle : i ≤ rf.commitIndex) :
    ∃ e, (∀ e', Holds σ.hist rf i e' ↔ e' = e) ∧
      ∀ b, (σ.node b).rf.state = .leader → rf.currentTerm < (σ.node b).rf.currentTerm →
        ∀ e', Holds σ.hist (σ.node b).rf i e' ↔ e' = e := by
  obtain ⟨g, hg, -⟩ := rel_of_reach (fun _ _ _ hm ↦ hm) h
  have hs := snapInv_of_reach h
  obtain ⟨hpos, hcommit, hall⟩ := hg.event _ hev
  -- the entry the ledger has there
  obtain ⟨last, hlast, -⟩ := (hg.inv.committed _ _ hcommit).1
  have hlen := (List.getElem?_eq_some_iff.mp hlast).1
  obtain ⟨e, he⟩ : ∃ e, (g.leaderLog rf.currentTerm)[i - 1]? = some e :=
    ⟨_, List.getElem?_eq_getElem (by omega)⟩
  have hcom : Committed g i e := ⟨_, _, hcommit, h0, by omega, he⟩
  refine ⟨e, holds_iff hg hs hcom (hs.event _ hev) fun hlt ↦ ?_, fun b hb hlater ↦
    holds_iff hg hs hcom (hs.node b) fun hlt ↦ ?_⟩
  · obtain ⟨e₁, hget, hl⟩ := hall i hlt hle
    rw [hget, ← he, hl]
  · have hL := (hg.node b).server.leader hb
    have hag := hg.inv.agree_of_commit hcommit hlater.le (by rw [hL.winner]; simp) (i - 1)
      (Nat.zero_le _) (by omega)
    rw [(hg.node b).server.get_eq hlt, ← hL.log, ← hag, he]

/-- Server `1`, which has the entry that `0` committed in term `1`, is elected in term `2`. -/
def secondTerm : List (Action 3 Nat) :=
  firstCommit ++ [.tick 1, .askVote 1 2, .deliver 3, .answer 3]

theorem leader_completeness_secondTerm :
    ∃ σ : Cluster 3 Nat, (machine 3 Nat).Reach (fun _ _ σ' ↦ σ'.MajorityBacked) σ ∧
      (σ.node 1).rf.state = .leader ∧ (σ.node 1).rf.currentTerm = 2 ∧
      ∃ rf, .committed 0 rf ∈ σ.hist ∧ rf.currentTerm = 1 ∧ rf.commitIndex = 1 ∧
        ∃ e, Holds σ.hist rf 1 e ∧ Holds σ.hist (σ.node 1).rf 1 e := by
  obtain ⟨σ, hσ, hs, ht, ⟨rf, hmem, hrt, hrc⟩⟩ := Machine.exists_reach_of_exec
    (M := machine 3 Nat) (P := fun _ _ σ' ↦ σ'.MajorityBacked)
    (Q := fun σ : Cluster 3 Nat ↦ (σ.node 1).rf.state = .leader ∧ (σ.node 1).rf.currentTerm = 2 ∧
      ∃ rf ∈ commitments (0 : Fin 3) σ.hist, rf.currentTerm = 1 ∧ rf.commitIndex = 1)
    secondTerm (by decide +kernel)
  have hev := mem_commitments.mp hmem
  obtain ⟨e, h0, h1⟩ := leader_completeness hσ hev Nat.one_pos hrc.ge
  exact ⟨σ, hσ, hs, ht, rf, hev, hrt, hrc, e, (h0 e).mpr rfl,
    (h1 1 hs (by omega) e).mpr rfl⟩

end Cluster

end DistLabs
