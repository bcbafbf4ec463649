import DistLabs.Raft.Cells
import DistLabs.Raft.Safety

/-!
# What `matchIndex` is worth

A leader's `matchIndex[i]` is `0`, or was acknowledged by an `AppendEntries` reply of its own term,
or is the end of a snapshot that peer `i` has taken over (`MatchInv`).  The ledger says how long an
acknowledgement is good for: until the peer moves to a later term, and for what is committed beyond
that.  So this is what holds of every peer (`matchIndex_held`); `match_overwritten` is a run in
which a peer has moved on, and no longer holds what a leader that was left behind believes it does.

The answer to an `InstallSnapshot` is recorded without a look at the term it was sent in, so a
server that has been elected again may take a refusal for a success.  `TakesAccepted` leaves that
out.
-/

set_option autoImplicit false

namespace DistLabs

variable {n : Nat} {Cmd : Type}

open Ledger (Agree)

/-! ## The condition -/

/-- If this is the answer to an `InstallSnapshot` and a leader records it, then the request was not
refused: a refusal brings a later term than the request's. -/
def Raft.TakesAccepted (rf : Raft n Cmd) : Rpc n Cmd → Prop
  | .install _ args (some reply) => rf.state = .leader → reply ≤ rf.currentTerm → reply ≤ args.term
  | _ => True

instance (rf : Raft n Cmd) : (rpc : Rpc n Cmd) → Decidable (rf.TakesAccepted rpc)
  | .install _ _ (some _) => inferInstanceAs (Decidable (_ → _ → _))
  | .install _ _ none | .vote _ _ _ | .append _ _ _ => isTrue trivial

/-- If the action brings a leader the answer to an `InstallSnapshot` that it records, then the
request was not refused. -/
def Cluster.TakesAccepted (σ : Cluster n Cmd) : Action n Cmd → Prop
  | .answer c => ∀ call ∈ σ.calls[c]?, (σ.node call.caller).rf.TakesAccepted call.rpc
  | _ => True

instance (σ : Cluster n Cmd) : (act : Action n Cmd) → Decidable (σ.TakesAccepted act)
  | .answer _ => inferInstanceAs (Decidable (∀ _ ∈ _, _))
  | .tick _ | .askVote _ _ | .replicate _ | .deliver _ | .lose _ | .start _ _ | .snapshot _ _ _
  | .wake _ | .collect _ | .send _ | .sendSnap _ _ | .restart _ => isTrue trivial

namespace Cluster

variable {σ σ' : Cluster n Cmd} {act : Action n Cmd} {g : RaftLedger n Cmd}

/-! ## Where a match comes from -/

/-- Server `i` has answered an `AppendEntries` of term `T` that ended at index `m` with success. -/
def Acknowledged (σ : Cluster n Cmd) (i : Fin n) (T : Int) (m : Int) : Prop :=
  ∃ call ∈ σ.calls, call.callee = i ∧ ∃ k args reply, call.rpc = .append k args (some reply) ∧
    reply.success = true ∧ args.term = T ∧ m = args.prevLogIndex + args.entries.length

/-- What a leader in term `T` may note for its peer `i`. -/
def Matched (σ : Cluster n Cmd) (i : Fin n) (T : Int) (m : Int) : Prop :=
  m ≤ 0 ∨ m ≤ (σ.node i).rf.snapIndex ∨ σ.Acknowledged i T m

/-- What a leader has noted for its peers, and what those have done that were sent a snapshot. -/
structure MatchInv (σ : Cluster n Cmd) : Prop where
  /-- The match of a peer has a source. -/
  matched : ∀ a, (σ.node a).rf.state = .leader → ∀ m, (σ.node a).rf.matchIndex = some m →
    ∀ i, i ≠ a → σ.Matched i (σ.node a).rf.currentTerm (m i)
  /-- A snapshot that was not refused is there. -/
  installed : ∀ call ∈ σ.calls, ∀ k args reply, call.rpc = .install k args (some reply) →
    reply ≤ args.term → args.lastIncludedIndex ≤ (σ.node call.callee).rf.snapIndex

variable [Labgob (Saved n Cmd)]


theorem Trans.acknowledged_mono (h : Trans σ act σ') {i : Fin n} {T m : Int}
    (hack : σ.Acknowledged i T m) : σ'.Acknowledged i T m := by
  obtain ⟨call, hmem, hcallee, k, args, reply, hr, hrest⟩ := hack
  obtain ⟨c, hc⟩ := List.mem_iff_getElem?.mp hmem
  obtain ⟨call', hc', -, hcallee', -, hsame | hnew⟩ := h.call_mono hc
  · exact ⟨call', List.mem_of_getElem? hc', hcallee'.trans hcallee, k, args, reply,
      hsame.trans hr, hrest⟩
  · -- a call that has its reply is not answered again
    generalize call'.rpc = rpc at hnew
    cases hnew with
    | vote h' | append h' | install h' => simp [h'] at hr

theorem Trans.matched_mono (h : Trans σ act σ') (hσ : σ.AtRest) {i : Fin n} {T m : Int}
    (hm : σ.Matched i T m) : σ'.Matched i T m := by
  rcases hm with h0 | hs | hack
  · exact Or.inl h0
  · have := (h.evolves hσ i).snap
    exact Or.inr (Or.inl (by omega))
  · exact Or.inr (Or.inr (h.acknowledged_mono hack))

namespace MatchInv

theorem installed_step (hi : σ.MatchInv) (h : Trans σ act σ') (hσ : σ.AtRest) (call' : Call n Cmd)
    (hmem : call' ∈ σ'.calls) (k : Nat) (args : InstallSnapshotArgs n) (reply : Int)
    (hr : call'.rpc = .install k args (some reply)) (hle : reply ≤ args.term) :
    args.lastIncludedIndex ≤ (σ'.node call'.callee).rf.snapIndex := by
  obtain ⟨c, hc'⟩ := List.mem_iff_getElem?.mp hmem
  rcases h.call_cases hc' with ⟨call, hc, hk⟩ | ⟨-, hreq, -⟩ | ⟨call, -, hc, hrep, -, hcallee, -⟩
  · have hold := hi.installed call (List.mem_of_getElem? hc) k args reply (hk.rpc ▸ hr) hle
    rw [hk.callee]
    exact hold.trans (h.evolves hσ _).snap
  · cases hreq <;> simp at hr
  · rw [hr] at hrep
    rw [hcallee]
    cases hrep with
    | install _ hrf =>
      obtain ⟨hterm, hcase⟩ := Raft.installSnapshot_spec hrf
      rcases hcase with ⟨-, hsee, hold⟩ | ⟨-, -, ⟨-, -, hnew⟩ | ⟨-, -, hnew⟩⟩
      · rw [hsee, Raft.seeTerm_currentTerm] at hterm
        rw [hsee, Raft.seeTerm_snapIndex]
        omega
      · rw [hnew]
        exact le_rfl
      · rw [hnew]
        exact le_rfl

theorem matched_step (hi : σ.MatchInv) (h : Trans σ act σ') (hσ : σ.AtRest)
    (hok : σ.TakesAccepted act) (a : Fin n) (hs' : (σ'.node a).rf.state = .leader)
    (m' : Fin n → Int) (hm' : (σ'.node a).rf.matchIndex = some m') (i : Fin n) (hia : i ≠ a) :
    σ'.Matched i (σ'.node a).rf.currentTerm (m' i) := by
  rcases h.leader_cases hσ hs' with ⟨hs, hT⟩ | ⟨-, hrf⟩
  swap
  · rw [hrf, Raft.becomeLeader, Option.some_inj] at hm'
    subst hm'
    dsimp only
    rw [if_neg (by rw [(hσ a).1]; exact hia)]
    exact Or.inl le_rfl
  rw [hT]
  -- an old match stays one, and the new one is accounted for in each case
  have hold : ∀ m, (σ.node a).rf.matchIndex = some m →
      σ'.Matched i (σ.node a).rf.currentTerm (m i) := fun m hm ↦
    h.matched_mono hσ (hi.matched a hs m hm i hia)
  have hcells := h.cells hσ a
  generalize (σ'.node a).rf = rf' at hcells hs' hm'
  cases hcells with
  | kept _ hkeep => exact hold m' (hkeep ▸ hm')
  | elected hc => exact absurd (hs.symm.trans hc) (by simp)
  | restarted _ hrf =>
    rw [hrf] at hs'
    simp [Raft.revived, Raft.fresh] at hs'
  | refused _ _ _ _ _ _ _ _ _ _ _ hrf =>
    rw [hrf] at hm'
    exact hold m' hm'
  | @matched c k call args reply next m hact hc hw hr ha hyes hlead hterm hn hm hn' hmatch' _ =>
    rw [hmatch', Option.some_inj] at hm'
    subst hm'
    by_cases hcall : i = call.callee
    · subst hcall
      rw [Function.update_self]
      exact Or.inr (Or.inr (h.acknowledged_mono ⟨call, List.mem_of_getElem? hc, rfl, k, args,
        reply, hr, hyes, hterm.symm, rfl⟩))
    · rw [Function.update_of_ne hcall]
      exact hold m hm
  | @installed c k call args reply next m hact hc hw hr ha hle hn hm hrf =>
    rw [hrf, Option.some_inj] at hm'
    subst hm'
    by_cases hcall : i = call.callee
    · subst hcall
      rw [Function.update_self]
      subst hact
      have haccept := hok call hc
      rw [hr, ha] at haccept
      have hsnap := hi.installed call (List.mem_of_getElem? hc) k args reply hr (haccept hs hle)
      have := (h.evolves hσ call.callee).snap
      exact Or.inr (Or.inl (by omega))
    · rw [Function.update_of_ne hcall]
      exact hold m hm

end MatchInv

theorem matchInv_of_reach {P : Cluster n Cmd → Action n Cmd → Cluster n Cmd → Prop}
    (hP : ∀ σ act σ', P σ act σ' → σ.TakesAccepted act) (h : (machine n Cmd).Reach P σ) :
    σ.MatchInv := by
  refine h.invariant (I := MatchInv) ?_ fun σ act σ' hr hi hs hp ↦ ?_
  · constructor <;> simp [machine, init, Raft.fresh]
  · have hσ := atRest_of_reach hr
    have ht := Trans.of_step hs
    exact ⟨hi.matched_step ht hσ (hP σ act σ' hp), hi.installed_step ht hσ⟩

/-! ## What the peer holds -/

omit [Labgob (Saved n Cmd)] in
/-- What a server holds at an index is what the ledger has in its log there. -/
theorem holds_log_iff (h : Rel σ g) (hs : σ.SnapInv) (v : Fin n) {k : Nat} (h0 : 0 < k)
    {e : Entry Cmd} : Holds σ.hist (σ.node v).rf k e ↔ (g.log v)[k - 1]? = some e := by
  have hserver := (h.node v).server
  rcases Nat.lt_or_ge (σ.node v).rf.snapIndex k with hlt | hge
  · rw [Holds, hserver.get_eq hlt]
    constructor
    · rintro (⟨-, he⟩ | ⟨hle, -⟩)
      · exact he
      · omega
    · exact fun he ↦ Or.inl ⟨hlt, he⟩
  -- what is compacted is committed
  have hsnap := hserver.snap
  have hpast : k - 1 < (g.past v).length := by
    rw [Ledger.snap] at hsnap
    omega
  obtain ⟨x, hx⟩ : ∃ x, (g.past v)[k - 1]? = some x := ⟨_, List.getElem?_eq_getElem hpast⟩
  have hcom : Committed g k x := by
    rcases h.inv.past_sealed v with hz | ⟨U, j, hc, -, hj, hag⟩
    · omega
    · exact ⟨U, j, hc, h0, by omega, (hag (k - 1) (Nat.zero_le _) (by omega)) ▸ hx⟩
  rw [holds_iff h hs hcom (hs.node v) (fun hlt ↦ by omega), Ledger.log,
    List.getElem?_append_left hpast, hx, Option.some_inj, eq_comm]

omit [Labgob (Saved n Cmd)] in
/-- A peer's log has what its leader's has, up to a match: as long as the peer has not moved to a
later term, and where the leader knows the entry to be committed. -/
theorem Matched.agree (hg : Rel σ g) {a i : Fin n} {m : Int}
    (hm : σ.Matched i (σ.node a).rf.currentTerm m) (hs : (σ.node a).rf.state = .leader) {k : Nat}
    (h0 : 0 < k) (hk : (k : Int) ≤ m)
    (hcond : (σ.node i).rf.currentTerm ≤ (σ.node a).rf.currentTerm ∨
      k ≤ (σ.node a).rf.commitIndex ∨ k ≤ (σ.node a).rf.snapIndex) :
    ∃ e, (g.log a)[k - 1]? = some e ∧ (g.log i)[k - 1]? = some e := by
  have ha := (hg.node a).server
  have hserver := (hg.node i).server
  have hL := ha.leader hs
  have hw : g.winner (σ.node a).rf.currentTerm ≠ none := by rw [hL.winner]; simp
  -- what the leader knows to be committed
  have hsealed : (σ.node i).rf.currentTerm ≤ (σ.node a).rf.currentTerm ∨
      g.Sealed (σ.node a).rf.currentTerm (g.log a) k := by
    rcases hcond with hle | hc | hc
    · exact Or.inl hle
    · exact Or.inr (ha.committed.mono_right hc)
    · have hp := hg.inv.past_sealed a
      rw [ha.term, ha.snap] at hp
      exact Or.inr ((hp.mono_right hc).of_agree fun j _ hj ↦ by
        have hsn := ha.snap
        rw [Ledger.snap] at hsn
        rw [Ledger.log, List.getElem?_append_left (by omega)])
  have hsame : (g.log i)[k - 1]? = (g.log a)[k - 1]? ∧
      (k ≤ (g.log i).length ∨ k ≤ (g.log a).length) := by
    rcases hm with hz | hsnap | ⟨call, hmem, rfl, r, args, reply, hr, hok, hT, rfl⟩
    · omega
    · have hlen := hserver.snapIndex_le
      refine ⟨?_, Or.inl (by omega)⟩
      rcases hsealed with hle | hseal
      · have hag := hg.inv.past_agree (hserver.term.symm ▸ hle) hw
        rw [hserver.snap, hL.log] at hag
        exact hag (k - 1) (Nat.zero_le _) (by omega)
      · have hp := hg.inv.past_sealed i
        rw [hserver.snap] at hp
        have hsn := hserver.snap
        rw [Ledger.snap] at hsn
        rw [← hg.inv.sealed_agree hp hseal (i := k - 1) (by omega) (by omega), Ledger.log,
          List.getElem?_append_left (by omega)]
    · have hack := hg.reply call hmem
      rw [hr] at hack
      replace hack := hack hok
      rw [hT] at hack
      have hlen := (hg.inv.acked _ _ _ hack).2.1
      rw [hL.log] at hlen
      refine ⟨?_, Or.inr (by omega)⟩
      rw [← hL.log]
      rcases hsealed with hle | hseal
      · exact hg.kept.agree_of_term hack (hserver.term.symm ▸ hle) (k - 1) (Nat.zero_le _)
          (by omega)
      · exact hg.kept.agree_of_sealed hg.inv hack hw hseal (by omega) (k - 1) (Nat.zero_le _)
          (by omega)
  obtain ⟨heq, hlen⟩ := hsame
  rcases hlen with hlen | hlen
  · have hx : (g.log i)[k - 1]? = some _ := List.getElem?_eq_getElem (by omega)
    exact ⟨_, heq ▸ hx, hx⟩
  · have hx : (g.log a)[k - 1]? = some _ := List.getElem?_eq_getElem (by omega)
    exact ⟨_, hx, heq ▸ hx⟩

/-- **`matchIndex` overstates nothing that a peer in the leader's term, or the leader's commit
index, could contradict.**  In a run whose elections are won by majorities, and in which no leader
takes a refused snapshot for an accepted one: if server `a` leads, peer `i` is not in a later term,
or `k` is committed as far as `a` knows or compacted by `a`, and `k` is at most `matchIndex[i]`,
then there is one entry that both servers hold at `k`, in the log or in the snapshot. -/
theorem matchIndex_held
    (h : (machine n Cmd).Reach (fun σ act σ' ↦ σ'.MajorityBacked ∧ σ.TakesAccepted act) σ)
    {a : Fin n} (hs : (σ.node a).rf.state = .leader) {m : Fin n → Int}
    (hm : (σ.node a).rf.matchIndex = some m) {i : Fin n} (hi : i ≠ a) {k : Nat} (h0 : 0 < k)
    (hk : (k : Int) ≤ m i)
    (hcond : (σ.node i).rf.currentTerm ≤ (σ.node a).rf.currentTerm ∨
      k ≤ (σ.node a).rf.commitIndex ∨ k ≤ (σ.node a).rf.snapIndex) :
    ∃ e, (∀ e', Holds σ.hist (σ.node a).rf k e' ↔ e' = e) ∧
      ∀ e', Holds σ.hist (σ.node i).rf k e' ↔ e' = e := by
  obtain ⟨g, hg, -⟩ := rel_of_reach (fun _ _ _ hp ↦ hp.1) h
  have hsnap := snapInv_of_reach h
  have hmatch := (matchInv_of_reach (fun _ _ _ hp ↦ hp.2) h).matched a hs m hm i hi
  obtain ⟨e, hea, hei⟩ := hmatch.agree hg hs h0 hk hcond
  refine ⟨e, fun e' ↦ ?_, fun e' ↦ ?_⟩
  · rw [holds_log_iff hg hsnap a h0, hea, Option.some_inj, eq_comm]
  · rw [holds_log_iff hg hsnap i h0, hei, Option.some_inj, eq_comm]

/-- After the first commit both followers hold what the leader has noted for them. -/
theorem matchIndex_held_firstCommit :
    ∃ σ : Cluster 3 Nat,
      (machine 3 Nat).Reach (fun σ act σ' ↦ σ'.MajorityBacked ∧ σ.TakesAccepted act) σ ∧
      (∃ m ∈ (σ.node 0).rf.matchIndex, m 1 = 1) ∧
      ∃ e, Holds σ.hist (σ.node 0).rf 1 e ∧ Holds σ.hist (σ.node 1).rf 1 e := by
  obtain ⟨σ, hσ, hs, ⟨m, hm, h1⟩, hle⟩ := Machine.exists_reach_of_exec (M := machine 3 Nat)
    (P := fun σ act σ' ↦ σ'.MajorityBacked ∧ σ.TakesAccepted act)
    (Q := fun σ ↦ (σ.node 0).rf.state = .leader ∧ (∃ m ∈ (σ.node 0).rf.matchIndex, m 1 = 1) ∧
      (σ.node 1).rf.currentTerm ≤ (σ.node 0).rf.currentTerm)
    firstCommit (by decide +kernel)
  obtain ⟨e, h0, hi⟩ := matchIndex_held hσ hs hm (i := 1) (by decide) Nat.one_pos
    (by rw [h1]; decide) (Or.inl hle)
  exact ⟨σ, hσ, ⟨m, hm, h1⟩, e, (h0 e).mpr rfl, (hi e).mpr rfl⟩

/-- Server `0` leads term `1` and gets its first entry to server `1` alone.  Server `2` is elected
in term `2` by `3` and `4`, and replaces the entry on server `1` by its own. -/
def leftBehind : List (Action 5 Nat) :=
  [.tick 0, .askVote 0 1, .askVote 0 2, .deliver 0, .deliver 1, .answer 0, .answer 1,
    .start 0 (some 10), .replicate 0, .deliver 2, .answer 2,
    .tick 2, .askVote 1 3, .askVote 1 4, .deliver 3, .deliver 4, .answer 3, .answer 4,
    .start 2 (some 20), .replicate 5, .deliver 5]

/-- **A match is overwritten**: server `0` still leads term `1` with `matchIndex[1] = 1`, and server
`1`, by now in term `2`, has another entry at index `1`. -/
theorem match_overwritten :
    ∃ σ : Cluster 5 Nat,
      (machine 5 Nat).Reach (fun σ act σ' ↦ σ'.MajorityBacked ∧ σ.TakesAccepted act) σ ∧
      (σ.node 0).rf.state = .leader ∧ (∃ m ∈ (σ.node 0).rf.matchIndex, m 1 = 1) ∧
      Holds σ.hist (σ.node 0).rf 1 ⟨1, some 10⟩ ∧ Holds σ.hist (σ.node 1).rf 1 ⟨2, some 20⟩ ∧
      ¬ Holds σ.hist (σ.node 1).rf 1 ⟨1, some 10⟩ := by
  obtain ⟨σ, hσ, hs, hm, hs0, he0, hs1, he1⟩ := Machine.exists_reach_of_exec (M := machine 5 Nat)
    (P := fun σ act σ' ↦ σ'.MajorityBacked ∧ σ.TakesAccepted act)
    (Q := fun σ ↦ (σ.node 0).rf.state = .leader ∧ (∃ m ∈ (σ.node 0).rf.matchIndex, m 1 = 1) ∧
      (σ.node 0).rf.snapIndex = 0 ∧ (σ.node 0).rf.get 1 = some ⟨1, some 10⟩ ∧
      (σ.node 1).rf.snapIndex = 0 ∧ (σ.node 1).rf.get 1 = some ⟨2, some 20⟩)
    leftBehind (by decide +kernel)
  refine ⟨σ, hσ, hs, hm, Or.inl ⟨by omega, he0⟩, Or.inl ⟨by omega, he1⟩, ?_⟩
  rintro (⟨-, hother⟩ | ⟨hle, -⟩)
  · rw [he1] at hother
    simp at hother
  · omega

end Cluster

end DistLabs
