import DistLabs.Raft.Refinement

/-!
# Sections as moves

What each section of the code is on the ledger.  First how to read a server's log off the ledger:
index `i` of the server is position `i - 1` there, and the term found at an index — also at the
boundary — is the term the first `i` entries end in (`ServerRel.get_eq`, `ServerRel.get_term`).

Then one lemma for each section that changes a server, saying by which move the ledger follows and
that the server is related to the result.  Two of them carry the weight:

* `ServerRel.merge`: reconciling a follower's log with a piece of the leader's is an `adopt`;
* `ServerRel.restored`: taking over a snapshot is an `install`, and it keeps log matching where the
  entry at the snapshot's last index, if the follower has one beyond it, has the right term.
-/

set_option autoImplicit false

namespace DistLabs

variable {n : Nat} {Cmd : Type}

open Ledger (endTerm Agree Grows Frame Acts Adopts)

namespace ServerRel

variable {P : Prop} {g : RaftLedger n Cmd} {v : Fin n} {rf rf' : Raft n Cmd}

/-! ## Reading a server off the ledger -/

theorem logLength (h : ServerRel g v rf) : rf.logLength = (g.log v).length + 1 := by
  obtain ⟨b, hlog, -⟩ := h.log
  have hs := h.snap
  rw [Ledger.snap] at hs
  rw [Raft.logLength, hlog, Ledger.log, List.length_append, List.length_cons]
  omega

/-- Beyond the snapshot, index `i` is position `i - 1`. -/
theorem get_eq (h : ServerRel g v rf) {i : Nat} (hi : rf.snapIndex < i) :
    rf.get i = (g.log v)[i - 1]? := by
  obtain ⟨b, hlog, -⟩ := h.log
  have hs := h.snap
  rw [Ledger.snap] at hs
  rw [Raft.get, if_neg (by omega), hlog, Ledger.log,
    List.getElem?_append_right (by omega), hs, show i - rf.snapIndex = i - 1 - rf.snapIndex + 1 by
      omega, List.getElem?_cons_succ]

/-- The log from index `i + 1` on is the ledger's from position `i` on. -/
theorem drop_eq (h : ServerRel g v rf) {i : Nat} (hi : rf.snapIndex ≤ i) :
    rf.log.drop (i + 1 - rf.snapIndex) = (g.log v).drop i := by
  obtain ⟨b, hlog, -⟩ := h.log
  have hs := h.snap
  rw [Ledger.snap] at hs
  rw [hlog, show i + 1 - rf.snapIndex = i - rf.snapIndex + 1 by omega, List.drop_succ_cons,
    Ledger.log, List.drop_append, List.drop_eq_nil_of_le (i := i) (by omega), hs, List.nil_append]

theorem snapIndex_le (h : ServerRel g v rf) : rf.snapIndex ≤ (g.log v).length := by
  have hs := h.snap
  rw [Ledger.snap] at hs
  rw [Ledger.log, List.length_append]
  omega

theorem take_snapIndex (h : ServerRel g v rf) : (g.log v).take rf.snapIndex = g.past v := by
  rw [Ledger.log, ← h.snap, Ledger.snap, List.take_left]

/-- The term found at an index is the term the entries up to it end in. -/
theorem get_term (h : ServerRel g v rf) {i : Nat} {e : Entry Cmd} (he : rf.get i = some e) :
    e.term = endTerm ((g.log v).take i) := by
  obtain ⟨hle, hget⟩ := Raft.get_eq_some.mp he
  rcases Nat.eq_or_lt_of_le hle with rfl | hlt
  · obtain ⟨b, hlog, hb⟩ := h.log
    rw [hlog, Nat.sub_self, List.getElem?_cons_zero, Option.some_inj] at hget
    rw [h.take_snapIndex, ← hget, hb]
  · rw [h.get_eq hlt] at he
    have hlen := (List.getElem?_eq_some_iff.mp he).1
    refine (Ledger.endTerm_of_getElem? (k := i - 1) (e := e) ?_ ?_).symm
    · rw [List.getElem?_take, if_pos (by omega), he]
    · rw [List.length_take]
      omega

theorem commitIndex_le (h : ServerRel g v rf) (hi : g.Inv) : rf.commitIndex ≤ (g.log v).length :=
  hi.length_of_sealed h.committed

/-- A server whose leader is somebody else does not lead. -/
theorem not_leader (h : ServerRel g v rf) {w : Fin n} (hw : g.winner rf.currentTerm = some w)
    (hne : v ≠ w) : rf.state ≠ .leader := by
  intro hs
  have := (h.leader hs).winner
  rw [hw, Option.some_inj] at this
  exact hne this.symm

/-- Term, log, snapshot and indexes are all that matters of a server that does not lead. -/
theorem congr (h : ServerRel g v rf) (hterm : rf'.currentTerm = rf.currentTerm)
    (hlog : rf'.log = rf.log) (hsnap : rf'.snapIndex = rf.snapIndex)
    (hcommit : rf'.commitIndex = rf.commitIndex) (happ : rf'.lastApplied = rf.lastApplied)
    (hlead : rf'.state = .leader → rf.state = .leader ∧ rf'.matchIndex = rf.matchIndex) :
    ServerRel g v rf' := by
  refine ⟨by rw [hterm, h.term], by rw [hlog]; exact h.log, by rw [hsnap, h.snap], ?_, ?_, ?_⟩
  · rw [hterm, hcommit]
    exact h.committed
  · rw [happ, hcommit]
    exact h.applied
  · intro hs
    obtain ⟨hs', hm⟩ := hlead hs
    obtain ⟨h1, h2, h3, h4⟩ := h.leader hs'
    refine ⟨?_, ?_, ?_, ?_⟩ <;> simp only [hterm, hsnap, hcommit, hm] <;> assumption

/-- Votes are nothing a server holds. -/
theorem castVote (h : ServerRel g v rf) (x : Ledger.Vote (Fin n)) :
    ServerRel (g.castVote x) v rf :=
  ⟨h.term, h.log, h.snap, h.committed, h.applied, fun hs ↦
    ⟨(h.leader hs).winner, (h.leader hs).log, (h.leader hs).commits, (h.leader hs).matched⟩⟩

/-- A restart keeps what is on disk. -/
theorem revived (h : ServerRel g v rf) : ServerRel g v rf.revived :=
  ⟨h.term, h.log, h.snap, Or.inl rfl, le_rfl, fun hs ↦ by simp [Raft.revived, Raft.fresh] at hs⟩

/-- What a server has committed, somebody has, and where the server still has an entry it is the
committed one. -/
theorem committed_get (h : ServerRel g v rf) (hi : g.Inv) {c : Nat} (h0 : 0 < c)
    (hc : c ≤ rf.commitIndex) : ∃ U k, (U, k) ∈ g.commits ∧ c ≤ k + 1 ∧
      ∀ i, rf.snapIndex < i → i ≤ c →
        ∃ e, rf.get i = some e ∧ (g.leaderLog U)[i - 1]? = some e := by
  have hs := h.committed.mono_right hc
  have hlen := hi.length_of_sealed hs
  rcases hs with rfl | ⟨U, k, hcom, -, hck, hag⟩
  · omega
  · refine ⟨U, k, hcom, hck, fun i hi' hic ↦ ?_⟩
    have he : (g.log v)[i - 1]? = some _ := List.getElem?_eq_getElem (by omega)
    exact ⟨_, (h.get_eq hi').trans he, (hag (i - 1) (Nat.zero_le _) (by omega)) ▸ he⟩

/-- What a leader has committed, and still has, is in the log of its term. -/
theorem leader_get (h : ServerRel g v rf) (hi : g.Inv) (hs : rf.state = .leader) {i : Nat}
    (hlt : rf.snapIndex < i) (hle : i ≤ rf.commitIndex) :
    ∃ e, rf.get i = some e ∧ (g.leaderLog rf.currentTerm)[i - 1]? = some e := by
  have hlen := h.commitIndex_le hi
  have he : (g.log v)[i - 1]? = some _ := List.getElem?_eq_getElem (by omega)
  exact ⟨_, (h.get_eq hlt).trans he, by rw [(h.leader hs).log, he]⟩

/-- If the place where a leader would write next is committed, then in a later term, with another
entry. -/
theorem committed_ahead (h : ServerRel g v rf) (hi : g.Inv) (hs : rf.state = .leader) {U : Int}
    {k : Nat} (hc : (U, k) ∈ g.commits) (hk : (g.log v).length ≤ k) :
    ∃ e, (g.leaderLog U)[(g.log v).length]? = some e ∧ e.term ≠ rf.currentTerm := by
  have hL := h.leader hs
  obtain ⟨e, he, -⟩ := (hi.committed U k hc).1
  have hlen := (List.getElem?_eq_some_iff.mp he).1
  have hx : (g.leaderLog U)[(g.log v).length]? = some _ := List.getElem?_eq_getElem (by omega)
  refine ⟨_, hx, fun hterm ↦ ?_⟩
  -- otherwise the leader's log would be that long already
  have hag := hi.matching U _ _ hx (g.log v).length (Nat.zero_le _) (by omega)
  rw [hx, show Stamped.term _ = rf.currentTerm from hterm, hL.log, List.getElem?_eq_none le_rfl]
    at hag
  simp at hag

/-! ## Requests -/

/-- What a leader puts into an `AppendEntries` request. -/
theorem appendRel (h : ServerRel g v rf) (hi : g.Inv) {i : Fin n} (hne : i ≠ v)
    {args : AppendEntriesArgs n Cmd} (ha : rf.singleAppend i = some (some (.append args))) :
    AppendRel g v i args := by
  obtain ⟨hs, hterm, -, ⟨prev, hprev, hpt⟩, hes, hlc⟩ := Raft.singleAppend_append ha
  have hL := h.leader hs
  have hle := (Raft.get_eq_some.mp hprev).1
  have hlt := Raft.get_lt_logLength hprev
  rw [h.logLength] at hlt
  rw [h.drop_eq hle] at hes
  have hlen : args.prevLogIndex + args.entries.length = (g.log v).length := by
    rw [hes, List.length_drop]
    omega
  have hll : g.leaderLog args.term = g.log v := by rw [hterm, hL.log]
  refine ⟨by rw [hterm, hL.winner], hne, ?_, ?_, ?_, ?_, ?_⟩
  · rw [hll, hlen]
  · intro j _
    rw [hll, hes, List.getElem?_drop]
  · rw [hll, hpt, h.get_term hprev]
  · rw [hlen, hlc]
    exact h.commitIndex_le hi
  · rw [hll, hlc, hterm]
    exact h.committed

/-- What a leader puts into an `InstallSnapshot` request. -/
theorem installRel (h : ServerRel g v rf) (hi : g.Inv) {i : Fin n} (hne : i ≠ v)
    {args : InstallSnapshotArgs n} (ha : rf.singleAppend i = some (some (.install args))) :
    InstallRel g v i args ∧ args.lastIncludedIndex ≤ rf.snapIndex := by
  obtain ⟨hs, snapTerm, hst, rfl⟩ := Raft.singleAppend_install ha
  have hL := h.leader hs
  refine ⟨⟨hL.winner, hne, ?_, ?_, ?_⟩, le_rfl⟩ <;> dsimp only <;> rw [hL.log]
  · exact h.snapIndex_le
  · obtain ⟨b, hlog, hb⟩ := h.log
    rw [Raft.getSnap, hlog, List.head?_cons, Option.map_some, Option.some_inj] at hst
    rw [h.take_snapIndex, ← hst, hb]
  · have hp := hi.past_sealed v
    rw [h.term, h.snap] at hp
    refine hp.of_agree fun k _ hk ↦ ?_
    rw [Ledger.log, List.getElem?_append_left]
    rw [← h.snap, Ledger.snap] at hk
    exact hk

/-- What any server puts into a vote request. -/
theorem voteRel (h : ServerRel g v rf) {args : RequestVoteArgs n}
    (ha : rf.requestVoteArgs = some args) : args.term = rf.currentTerm ∧
      args.lastLogTerm = endTerm (g.log v) ∧ args.lastLogIndex = (g.log v).length := by
  obtain ⟨last, hlast, rfl⟩ := Raft.requestVoteArgs_spec ha
  have ht := h.get_term hlast
  rw [h.logLength, Nat.add_sub_cancel, List.take_length] at ht
  exact ⟨rfl, ht, by rw [h.logLength, Nat.add_sub_cancel]⟩

/-! ## A leader -/

/-- **Winning an election** is an `elect`. -/
theorem becomeLeader (h : ServerRel g v rf) (hi : g.Inv) (hw : g.winner rf.currentTerm = none)
    (h0 : 0 ≤ rf.currentTerm) {Q : Finset (Fin n)} (hQ : Majority Q)
    (hv : ∀ u ∈ Q, u = v ∨
      ⟨u, v, rf.currentTerm, endTerm (g.log v), (g.log v).length⟩ ∈ g.votes) :
    Acts P g (g.elect v rf.currentTerm) v ∧
      ServerRel (g.elect v rf.currentTerm) v rf.becomeLeader := by
  have hA : Acts P g (g.elect v rf.currentTerm) v := .elect hi h.term hw h0 hQ hv
  refine ⟨hA, h.term, h.log, h.snap, hA.grows.sealed_mono hi le_rfl h.committed, h.applied,
    fun _ ↦ ⟨Function.update_self .., Function.update_self .., fun k hk ↦ ?_, fun m hm i _ ↦ ?_⟩⟩
  · exact absurd hw (hi.winner_of_has (hi.committed _ k hk).1)
  · left
    obtain rfl := Option.some_inj.mp hm
    dsimp only
    split
    · exact (show (-1 : Int) ≤ 0 by omega).trans (Int.natCast_nonneg _)
    · exact Int.natCast_nonneg _

/-- A leader records how far a follower has got: as far as it acknowledged, or as far as a snapshot
covers. -/
theorem setMatch (h : ServerRel g v rf) {m : Fin n → Int} (hm : rf.matchIndex = some m) {i : Fin n}
    {x : Int} (next : Option (Fin n → Int))
    (hx : rf.state = .leader → x ≤ rf.snapIndex ∨ (i, rf.currentTerm, x.toNat) ∈ g.acks) :
    ServerRel g v { rf with
      nextIndex := next, matchIndex := some (Function.update m i x) } := by
  refine ⟨h.term, h.log, h.snap, h.committed, h.applied, fun hs ↦ ?_⟩
  have hL := h.leader hs
  refine ⟨hL.winner, hL.log, hL.commits, fun m' hm' j hj ↦ ?_⟩
  obtain rfl := Option.some_inj.mp hm'
  by_cases hji : j = i
  · rw [hji, Function.update_self]
    exact hx hs
  · rw [Function.update_of_ne hji]
    exact hL.matched m hm j hj

/-- **Moving the commit index** of a leader is a `commit`. -/
theorem commit (h : ServerRel g v rf) (hi : g.Inv) (hme : rf.me = v) (hs : rf.state = .leader)
    {M c : Nat} {e : Entry Cmd} (hM : rf.commitIndex < M) (hsn : rf.snapIndex < M)
    (hc : rf.countMatch M = some c) (hmaj : n / 2 < c) (he : rf.get M = some e)
    (het : e.term = rf.currentTerm) :
    Acts P g (g.commit rf.currentTerm (M - 1)) v ∧
      ServerRel (g.commit rf.currentTerm (M - 1)) v
        (Raft.bEffortKick { rf with commitIndex := M }) := by
  have hL := h.leader hs
  obtain ⟨m, hm, rfl⟩ := Raft.countMatch_eq_some.mp hc
  have hpos : (g.log v)[M - 1]? = some e := h.get_eq hsn ▸ he
  have hlen := (List.getElem?_eq_some_iff.mp hpos).1
  have hA : Acts P g (g.commit rf.currentTerm (M - 1)) v := by
    refine .commit hi (Q := Finset.univ.filter fun i ↦ i = rf.me ∨ m i ≥ (M : Int)) hL.winner
      ⟨e, by rw [hL.log, hpos], het⟩ ?_ ?_ ?_
    · intro k hk hcom
      have := hL.commits k hcom
      omega
    · have hcard : (Finset.univ.filter fun i ↦ i = rf.me ∨ m i ≥ (M : Int)).card =
          (List.finRange n).countP fun i ↦ i = rf.me ∨ m i ≥ (M : Int) := by
        rw [List.countP_eq_length_filter]
        rfl
      rw [Majority, hcard, Fintype.card_fin]
      omega
    · intro u hu
      rcases (Finset.mem_filter.mp hu).2 with rfl | hge
      · exact Or.inl (hme ▸ hL.winner)
      · by_cases huv : u = v
        · exact Or.inl (huv ▸ hL.winner)
        · rcases hL.matched m hm u huv with hle | hack
          · omega
          · exact Or.inr ⟨_, by omega, hack⟩
  refine ⟨hA, h.term, h.log, h.snap, ?_, ?_, fun _ ↦ ⟨hL.winner, hL.log, fun k hk ↦ ?_, hL.matched⟩⟩
  · refine Or.inr ⟨rf.currentTerm, M - 1, Set.mem_insert _ _, le_rfl, ?_, ?_⟩
    · change M ≤ M - 1 + 1
      omega
    · have : (g.commit rf.currentTerm (M - 1)).leaderLog rf.currentTerm = g.log v := hL.log
      rw [this]
      exact fun _ _ _ ↦ rfl
  · exact h.applied.trans hM.le
  · change k < M
    rcases Set.mem_insert_iff.mp hk with heq | hold
    · obtain ⟨-, rfl⟩ := Prod.mk.injEq .. ▸ heq
      omega
    · have := hL.commits k hold
      omega

/-! ## Entries from the leader -/

/-- Reconciling with a piece of the leader's log, from a position up to which the two agree. -/
theorem adopts_reconcile (hi : g.Inv) {T : Int} {q m : Nat} {tl : List (Entry Cmd)}
    (hq : g.snap v ≤ q) (hlen : q ≤ (g.log v).length) (hm : m ≤ (g.leaderLog T).length)
    (hag : Agree (g.snap v) q (g.log v) (g.leaderLog T))
    (htl : g.past v ++ tl = (g.log v).take q ++
      reconcile ((g.log v).drop q) (((g.leaderLog T).take m).drop q)) :
    g.Adopts v T m tl := by
  have hyours : (((g.leaderLog T).take m).drop q).length = m - q := by
    rw [List.length_drop, List.length_take]
    omega
  -- agreement of the terms up to `q + j` is agreement of the entries
  have hsame : ∀ j, j ≤ m - q →
      SameTerms j ((g.log v).drop q) (((g.leaderLog T).take m).drop q) →
      Agree (g.snap v) (q + j) (g.log v) (g.leaderLog T) := by
    intro j hj hst
    cases j with
    | zero => exact hag
    | succ j =>
      obtain ⟨e, e', he, he', hee⟩ := hst j (by omega)
      rw [List.getElem?_drop] at he he'
      rw [List.getElem?_take, if_pos (by omega)] at he'
      exact hi.agree_of_term (k := q + j) (by omega) he he' hee
  rcases reconcile_cases ((g.log v).drop q) (((g.leaderLog T).take m).drop q) with
    ⟨heq, hst⟩ | ⟨j, hj, hjm, hst, hcut, heq⟩
  · left
    rw [heq, List.take_append_drop] at htl
    refine ⟨List.append_cancel_left htl, ?_⟩
    rw [hyours] at hst
    exact (hsame (m - q) le_rfl hst).mono le_rfl (by omega)
  · right
    rw [hyours] at hj
    rw [List.length_drop] at hjm
    refine ⟨q + j, by omega, by omega, hsame j hj.le hst, ?_, ?_⟩
    · rcases hcut with hend | ⟨e, e', he, he', hne⟩
      · rw [List.length_drop] at hend
        exact Or.inl (by omega)
      · rw [List.getElem?_drop] at he he'
        rw [List.getElem?_take, if_pos (by omega)] at he'
        refine Or.inr ⟨(List.getElem?_eq_some_iff.mp he).1, fun hcon ↦ hne ?_⟩
        rw [he, he', Option.some_inj] at hcon
        rw [hcon]
    · rw [htl, heq, List.take_add, List.drop_drop, List.append_assoc]

/-- The follower's log after an `AppendEntries`, on the ledger. -/
theorem mergedLog_eq (h : ServerRel g v rf) {w : Fin n} {args : AppendEntriesArgs n Cmd}
    (ha : AppendRel g w v args) : ∃ b tl, rf.mergedLog args = b :: tl ∧
      b.term = endTerm (g.past v) ∧
      g.past v ++ tl = (g.log v).take (max args.prevLogIndex rf.snapIndex) ++
        reconcile ((g.log v).drop (max args.prevLogIndex rf.snapIndex))
          (((g.leaderLog args.term).take (args.prevLogIndex + args.entries.length)).drop
            (max args.prevLogIndex rf.snapIndex)) := by
  obtain ⟨b, hb, hbt⟩ := h.log
  have hs := h.snap
  rw [Ledger.snap] at hs
  set q := max args.prevLogIndex rf.snapIndex with hq
  have hsq : rf.snapIndex ≤ q := le_max_right _ _
  -- what is left of the request's entries is the leader's log from `q` on
  have hes : args.entries.drop (rf.snapIndex - args.prevLogIndex) =
      ((g.leaderLog args.term).take (args.prevLogIndex + args.entries.length)).drop q := by
    have hlen := ha.length
    refine List.ext_getElem? fun j ↦ ?_
    rw [List.getElem?_drop, List.getElem?_drop, List.getElem?_take]
    split
    · next hj =>
      rw [ha.entries _ (by omega)]
      congr 1
      omega
    · next hj => rw [List.getElem?_eq_none (by omega)]
  have htake : rf.log.take (q + 1 - rf.snapIndex) = b :: (g.tail v).take (q - rf.snapIndex) := by
    rw [hb, show q + 1 - rf.snapIndex = q - rf.snapIndex + 1 by omega, List.take_succ_cons]
  refine ⟨b, (g.tail v).take (q - rf.snapIndex) ++ reconcile ((g.log v).drop q)
    (((g.leaderLog args.term).take (args.prevLogIndex + args.entries.length)).drop q), ?_, hbt, ?_⟩
  · rw [Raft.mergedLog, ← hq, htake, h.drop_eq hsq, hes, List.cons_append]
  · rw [← List.append_assoc]
    congr 1
    rw [Ledger.log, List.take_append, List.take_of_length_le (i := q) (by omega), hs]

/-- Below the piece a request brings, a follower that passes the consistency check agrees with the
leader already. -/
theorem agree_prev (h : ServerRel g v rf) (hi : g.Inv) {w : Fin n} {args : AppendEntriesArgs n Cmd}
    (ha : AppendRel g w v args) (hprev : args.prevLogIndex ≤ rf.snapIndex ∨
      ∃ prev, rf.get args.prevLogIndex = some prev ∧ prev.term = args.prevLogTerm) :
    max args.prevLogIndex rf.snapIndex ≤ (g.log v).length ∧
      Agree (g.snap v) (max args.prevLogIndex rf.snapIndex) (g.log v)
        (g.leaderLog args.term) := by
  rcases hprev with hle | ⟨prev, hget, hpt⟩
  · rw [max_eq_right hle, h.snap]
    exact ⟨h.snapIndex_le, fun _ _ _ ↦ by omega⟩
  · have hle := (Raft.get_eq_some.mp hget).1
    have hlt := Raft.get_lt_logLength hget
    rw [h.logLength] at hlt
    rw [max_eq_left hle]
    refine ⟨by omega, ?_⟩
    rcases Nat.eq_or_lt_of_le hle with heq | hgt
    · rw [h.snap, heq]
      exact fun _ _ _ ↦ by omega
    · -- both logs have an entry of `prevLogTerm` there
      have hlen := ha.length
      obtain ⟨y, hy⟩ : ∃ y, (g.leaderLog args.term)[args.prevLogIndex - 1]? = some y :=
        ⟨_, List.getElem?_eq_getElem (by omega)⟩
      have hend : endTerm ((g.leaderLog args.term).take args.prevLogIndex) = Stamped.term y := by
        refine Ledger.endTerm_of_getElem? (k := args.prevLogIndex - 1) ?_ ?_
        · rw [List.getElem?_take, if_pos (by omega), hy]
        · rw [List.length_take]
          omega
      rw [h.get_eq hgt] at hget
      have hsn := h.snap
      have hag := hi.agree_of_term (by omega) hget hy (by
        rw [← hend, ← ha.prevTerm]
        exact hpt)
      rwa [Nat.sub_add_cancel (by omega)] at hag

/-- **Taking entries from the leader** is an `adopt`.  The commit index may follow the leader's as
far as the request reaches. -/
theorem merge (h : ServerRel g v rf) (hi : g.Inv) {w : Fin n} {args : AppendEntriesArgs n Cmd}
    (ha : AppendRel g w v args) (ht : rf.currentTerm = args.term)
    (hprev : args.prevLogIndex ≤ rf.snapIndex ∨
      ∃ prev, rf.get args.prevLogIndex = some prev ∧ prev.term = args.prevLogTerm)
    (hlog : rf'.log = rf.mergedLog args) (hterm : rf'.currentTerm = rf.currentTerm)
    (hsnap : rf'.snapIndex = rf.snapIndex) (happ : rf'.lastApplied = rf.lastApplied)
    (hstate : rf'.state = .leader → rf.state = .leader)
    (hcommit : rf'.commitIndex = if args.leaderCommit > rf.commitIndex then
      min args.leaderCommit (rf'.logLength - 1) else rf.commitIndex) :
    ∃ tl, Acts P g (g.adopt v args.term (args.prevLogIndex + args.entries.length) tl) v ∧
      ServerRel (g.adopt v args.term (args.prevLogIndex + args.entries.length) tl) v rf' ∧
      rf.commitIndex ≤ rf'.commitIndex := by
  obtain ⟨b, tl, hmerged, hbt, htl⟩ := h.mergedLog_eq ha
  set m := args.prevLogIndex + args.entries.length with hm
  have hwin : g.winner args.term ≠ none := by rw [ha.winner]; simp
  have hgt : g.term v = args.term := h.term.trans ht
  have hbelow := h.agree_prev hi ha hprev
  have hadopts : g.Adopts v args.term m tl := by
    refine adopts_reconcile hi ?_ hbelow.1 ha.length hbelow.2 htl
    rw [h.snap]
    exact le_max_right _ _
  have hmove := Ledger.Move.adopt hgt hwin ha.length hadopts
  set g' := g.adopt v args.term m tl with hg'
  have hA : Acts P g g' v := .adopt hi hgt hwin ha.length hadopts
  have htail : g'.tail v = tl := Function.update_self ..
  have hglog : g'.log v = g.past v ++ tl := by rw [Ledger.log, htail]; rfl
  have hold : g'.Sealed rf.currentTerm (g'.log v) rf.commitIndex := by
    have := hi.sealed_step hmove (h.term.symm ▸ h.committed)
    rwa [show g'.term v = rf.currentTerm from h.term] at this
  have hlen' : rf'.logLength - 1 = (g'.log v).length := by
    have hs := h.snap
    rw [Ledger.snap] at hs
    rw [Raft.logLength, hlog, hmerged, hsnap, hglog, List.length_append, List.length_cons]
    omega
  -- what was committed is still there, so the commit index has room
  have hcle := hA.inv.length_of_sealed hold
  refine ⟨tl, hA, ⟨?_, ⟨b, ?_, hbt⟩, ?_, ?_, ?_, fun hs ↦ ?_⟩, by rw [hcommit]; split <;> omega⟩
  · rw [hterm]
    exact h.term
  · rw [hlog, hmerged, htail]
  · rw [hsnap]
    exact h.snap
  · rw [hcommit, hterm]
    split
    · -- the leader's commit index lies within what the follower now shares with it
      rw [hlen', ht]
      refine (Ledger.Sealed.of_agree (hA.grows.sealed_mono hi le_rfl ha.committed) ?_).mono_right
        (min_le_left _ _)
      intro k h0 hk
      have hcl := ha.commit_le
      rw [hglog]
      rcases Nat.lt_or_ge k (g.snap v) with hlt | hge
      · have := hi.past_agree hgt.le hwin k h0 hlt
        rw [Ledger.log, List.getElem?_append_left hlt] at this
        rwa [List.getElem?_append_left hlt]
      · exact Ledger.Inv.adopts_agree hadopts k hge (by omega)
    · exact hold
  · have happ' := h.applied
    rw [hcommit, happ]
    split <;> omega
  · exact absurd (hstate hs) (h.not_leader (ht ▸ ha.winner) ha.other)

/-! ## Terms -/

variable [Labgob (Saved n Cmd)]

/-- **Seeing a term** is a `bump`. -/
theorem seeTerm (h : ServerRel g v rf) (hi : g.Inv) (T : Int) :
    Acts P g (g.bump v (max rf.currentTerm T)) v ∧
      ServerRel (g.bump v (max rf.currentTerm T)) v (rf.seeTerm T) := by
  have hA : Acts P g (g.bump v (max rf.currentTerm T)) v := .bump hi (h.term ▸ le_max_left _ _)
  refine ⟨hA, ?_, ?_, (Raft.seeTerm_snapIndex rf T).symm ▸ h.snap, ?_, by simpa using h.applied, ?_⟩
  · rw [Raft.seeTerm_currentTerm]
    exact Function.update_self ..
  · rw [Raft.seeTerm_log]
    exact h.log
  · rw [Raft.seeTerm_currentTerm, Raft.seeTerm_commitIndex]
    exact hA.grows.sealed_mono hi (le_max_left _ _) h.committed
  · intro hs
    rcases lt_or_ge rf.currentTerm T with hlt | hge
    · rw [Raft.seeTerm_of_lt hlt] at hs
      simp [Raft.newGen, Raft.persist] at hs
    · rw [Raft.seeTerm_of_le hge] at hs ⊢
      exact ⟨(h.leader hs).winner, (h.leader hs).log, (h.leader hs).commits, (h.leader hs).matched⟩

/-- **Heeding a leader** is a `bump` too. -/
theorem heedLeader (h : ServerRel g v rf) (hi : g.Inv) (T : Int) :
    Acts P g (g.bump v (max rf.currentTerm T)) v ∧
      ServerRel (g.bump v (max rf.currentTerm T)) v (rf.heedLeader T) := by
  obtain ⟨hA, hs⟩ := h.seeTerm (P := P) hi T
  refine ⟨hA, hs.congr ?_ ?_ ?_ ?_ ?_ fun hl ↦ ?_⟩
  · simp
  · simp
  · simp
  · simp
  · simp
  · rw [Raft.heedLeader_eq] at hl
    dsimp only at hl
    split at hl
    · simp at hl
    · exact ⟨hl, by simp⟩

/-- **`AppendEntries`** is a `bump`, followed by an `adopt` where it succeeds.  What was committed
stays. -/
theorem appendEntries (h : ServerRel g v rf) (hi : g.Inv) {w : Fin n}
    {args : AppendEntriesArgs n Cmd} {reply : AppendEntriesReply} (ha : AppendRel g w v args)
    (hr : rf.appendEntries args = some (rf', reply)) :
    ∃ g', Acts P g g' v ∧ ServerRel g' v rf' ∧ g'.winner = g.winner ∧ g'.commits = g.commits ∧
      rf'.lastApplied = rf.lastApplied ∧ rf.commitIndex ≤ rf'.commitIndex ∧
      (reply.success = true →
        (v, args.term, args.prevLogIndex + args.entries.length) ∈ g'.acks) ∧
      (g'.log v = g.log v ∨ rf'.currentTerm = args.term) := by
  obtain ⟨hA, hs⟩ := h.heedLeader (P := P) hi args.term
  rcases Raft.appendEntries_spec hr with ⟨rfl, href⟩ | ⟨-, -, hle, hprev, w, rf₁, hrf₁, hrf'⟩
  · have hno : reply.success = false := by
      rcases href with ⟨-, rfl⟩ | ⟨-, rfl⟩ | ⟨-, -, -, -, -, rfl⟩ <;> rfl
    refine ⟨_, hA, hs, rfl, rfl, by simp, by simp, fun hok ↦ ?_, Or.inl rfl⟩
    rw [hno] at hok
    simp at hok
  -- both ways the log is the merged one, and the rest is as the leader's term left it
  have hfields : rf'.log = rf.mergedLog args ∧ rf'.currentTerm = args.term ∧
      rf'.snapIndex = rf.snapIndex ∧ rf'.lastApplied = rf.lastApplied ∧
      rf'.state = (rf.heedLeader args.term).state ∧ rf'.logLength = rf₁.logLength := by
    rcases hrf₁ with ⟨rfl, hsame⟩ | rfl <;> subst hrf'
    · simp [hsame, hle, Raft.logLength]
    · simp [Raft.persist, hle, Raft.logLength]
  obtain ⟨hlog, hterm, hsnap, happ, hstate, hlen⟩ := hfields
  have hcur : (rf.heedLeader args.term).currentTerm = args.term := by simp [hle]
  obtain ⟨tl, hA', hs', hcom⟩ := hs.merge (P := P) hA.inv (ha.mono hA.grows hi) hcur
    (by simpa using hprev) (show rf'.log = _ by simpa [Raft.mergedLog] using hlog)
    (hterm.trans hcur.symm) (by simpa using hsnap) (by simpa using happ) (fun hl ↦ hstate ▸ hl)
    (by rw [hlen, hrf']; simp)
  exact ⟨_, hA.trans hA', hs', rfl, rfl, happ, by simpa using hcom, fun _ ↦ Set.mem_insert _ _,
    Or.inr hterm⟩

theorem becomeCandidate (h : ServerRel g v rf) (hi : g.Inv) :
    Acts P g (g.bump v (rf.currentTerm + 1)) v ∧
      ServerRel (g.bump v (rf.currentTerm + 1)) v rf.becomeCandidate := by
  have hA : Acts P g (g.bump v (rf.currentTerm + 1)) v := by
    refine .bump hi ?_
    rw [h.term]
    omega
  refine ⟨hA, Function.update_self .., h.log, h.snap, ?_, h.applied, fun hs ↦ ?_⟩
  · exact hA.grows.sealed_mono hi (show rf.currentTerm ≤ rf.currentTerm + 1 by omega) h.committed
  · simp [Raft.becomeCandidate, Raft.persist] at hs

/-! ## Writing and cutting the log -/

/-- **`Start`** is a `create`. -/
theorem append (h : ServerRel g v rf) (hi : g.Inv) (hs : rf.state = .leader)
    (command : Option Cmd) :
    Acts P g (g.create v rf.currentTerm ⟨rf.currentTerm, command⟩) v ∧
      ServerRel (g.create v rf.currentTerm ⟨rf.currentTerm, command⟩) v
        (rf.append ⟨rf.currentTerm, command⟩) := by
  have hL := h.leader hs
  set e : Entry Cmd := ⟨rf.currentTerm, command⟩ with he
  set g' := g.create v rf.currentTerm e with hg'
  have hA : Acts P g g' v := .create hi hL.winner h.term hL.log rfl
  have htail : g'.tail v = g.tail v ++ [e] := Function.update_self ..
  have hlog : g'.log v = g.log v ++ [e] := by
    rw [Ledger.log, htail, ← List.append_assoc]
    rfl
  refine ⟨hA, h.term, ?_, h.snap, ?_, h.applied, fun _ ↦ ⟨hL.winner, ?_, hL.commits, hL.matched⟩⟩
  · obtain ⟨b, hb, hbt⟩ := h.log
    refine ⟨b, ?_, hbt⟩
    change rf.log ++ [e] = _
    rw [hb, htail, List.cons_append]
  · have hc := hi.sealed_step (.create (e := e) hL.winner h.term hL.log rfl)
      (h.term.symm ▸ h.committed)
    rwa [show (g.create v rf.currentTerm e).term v = rf.currentTerm from h.term] at hc
  · change g'.leaderLog rf.currentTerm = _
    rw [hlog, hg', Ledger.create]
    dsimp only
    rw [Function.update_self, hL.log]

/-- **`Snapshot`** is a `compact`. -/
theorem cut (h : ServerRel g v rf) (hi : g.Inv) {index : Nat} {e : Entry Cmd} (data : Bytes)
    (hlt : rf.snapIndex < index) (he : rf.get index = some e) (happ : index ≤ rf.lastApplied) :
    Acts P g (g.compact v index) v ∧ ServerRel (g.compact v index) v (Raft.persist { rf with
      log := ⟨e.term, none⟩ :: rf.log.drop (index - rf.snapIndex + 1)
      snapIndex := index
      snapshot := data }) := by
  have hsn : g.snap v < index := h.snap ▸ hlt
  have hlen : index ≤ (g.log v).length := by
    have := Raft.get_lt_logLength he
    rw [h.logLength] at this
    omega
  have hc : g.Sealed (g.term v) (g.log v) index := by
    rw [h.term]
    exact h.committed.mono_right (happ.trans h.applied)
  have hA : Acts P g (g.compact v index) v := .compact hi hsn hlen hc
  have hlog : (g.compact v index).log v = g.log v := Ledger.compact_log g hsn
  have hpast : (g.compact v index).past v = (g.log v).take index := Function.update_self ..
  refine ⟨hA, h.term, ⟨⟨e.term, none⟩, ?_, ?_⟩, ?_, ?_, h.applied, fun hs ↦ ?_⟩
  · obtain ⟨b, hb, -⟩ := h.log
    have htail : (g.compact v index).tail v = (g.tail v).drop (index - g.snap v) :=
      Function.update_self ..
    change (⟨e.term, none⟩ : Entry Cmd) :: rf.log.drop (index - rf.snapIndex + 1) = _
    rw [htail, h.snap, hb, List.drop_succ_cons]
  · have ht := h.get_term he
    rwa [hpast]
  · rw [Ledger.snap, hpast, List.length_take]
    exact Nat.min_eq_left hlen
  · rw [hlog]
    exact hA.grows.sealed_mono hi le_rfl h.committed
  · have hL := h.leader hs
    refine ⟨hL.winner, hL.log.trans hlog.symm, hL.commits, fun m hm i hi' ↦ ?_⟩
    refine (hL.matched m hm i hi').imp (fun hle ↦ hle.trans ?_) id
    exact Int.ofNat_le.mpr hlt.le

/-! ## A snapshot from the leader -/

/-- **Taking over a snapshot** is an `install`. -/
theorem restored (h : ServerRel g v rf) (hi : g.Inv) {w : Fin n} {args : InstallSnapshotArgs n}
    (ha : InstallRel g w v args) (ht : rf.currentTerm = args.term)
    (hlt : rf.snapIndex < args.lastIncludedIndex)
    (hglue : P → args.lastIncludedIndex < rf.logLength - 1 →
      (rf.get args.lastIncludedIndex).map Entry.term = some args.lastIncludedTerm) :
    Acts P g (g.install v args.term args.lastIncludedIndex) v ∧
      ServerRel (g.install v args.term args.lastIncludedIndex) v (rf.restored args) ∧
      (g.install v args.term args.lastIncludedIndex).Sealed args.term
        ((g.install v args.term args.lastIncludedIndex).log v) args.lastIncludedIndex := by
  have hwin : g.winner args.term ≠ none := by rw [ha.winner]; simp
  have hgt : g.term v = args.term := h.term.trans ht
  have hsn : g.snap v < args.lastIncludedIndex := h.snap ▸ hlt
  have hfit : P → g.Fits v args.term args.lastIncludedIndex := by
    intro hp
    by_cases hlong : args.lastIncludedIndex < rf.logLength - 1
    · obtain ⟨e, he, hte⟩ := Option.map_eq_some_iff.mp (hglue hp hlong)
      rw [h.get_eq hlt] at he
      exact Or.inr ⟨e, he, hte.trans ha.lastTerm⟩
    · rw [h.logLength] at hlong
      exact Or.inl (by omega)
  set s := args.lastIncludedIndex with hs
  have hmove := Ledger.Move.install hgt hwin hsn ha.length ha.committed
  set g' := g.install v args.term s with hg'
  have hA : Acts P g g' v := .install hi hgt hwin hsn ha.length ha.committed hfit
  have hpast : g'.past v = (g.leaderLog args.term).take s := Function.update_self ..
  have hsnap' : g'.snap v = s := by
    rw [Ledger.snap, hpast, List.length_take]
    exact Nat.min_eq_left ha.length
  have hterm : (rf.restored args).currentTerm = rf.currentTerm := by
    change (rf.seeTerm args.term).currentTerm = _
    rw [Raft.seeTerm_of_le ht.ge]
  have hcommit : (rf.restored args).commitIndex = rf.commitIndex := Raft.seeTerm_commitIndex ..
  have happ : (rf.restored args).lastApplied = rf.lastApplied := Raft.seeTerm_lastApplied ..
  refine ⟨hA, ⟨?_, ⟨⟨args.lastIncludedTerm, none⟩, ?_, ?_⟩, hsnap', ?_, ?_, fun hl ↦ ?_⟩, ?_⟩
  · rw [hterm]
    exact h.term
  · obtain ⟨b, hb, -⟩ := h.log
    have htail : g'.tail v = (g.tail v).drop (s - g.snap v) := Function.update_self ..
    change (⟨args.lastIncludedTerm, none⟩ : Entry Cmd) :: rf.log.drop (s + 1 - rf.snapIndex) = _
    rw [htail, h.snap, hb, show s + 1 - rf.snapIndex = s - rf.snapIndex + 1 by omega,
      List.drop_succ_cons]
  · rw [hpast]
    exact ha.lastTerm
  · have hc := hi.sealed_step hmove (h.term.symm ▸ h.committed)
    rw [show g'.term v = rf.currentTerm from h.term] at hc
    rw [hterm, hcommit]
    exact hc
  · rw [hcommit, happ]
    exact h.applied
  · have hl' : rf.state = .leader := by
      change (rf.seeTerm args.term).state = _ at hl
      rwa [Raft.seeTerm_of_le ht.ge] at hl
    exact absurd hl' (h.not_leader (ht ▸ ha.winner) ha.other)
  · have hp := hA.inv.past_sealed v
    rw [show g'.term v = args.term from hgt, hsnap'] at hp
    refine hp.of_agree fun k _ hk ↦ ?_
    rw [Ledger.log, List.getElem?_append_left]
    rw [← hsnap', Ledger.snap] at hk
    exact hk

end ServerRel

end DistLabs
