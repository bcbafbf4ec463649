import DistLabs.Raft.Histories

/-!
# The order of one leader's requests does not matter

A leader's requests to a follower may arrive in any order: an old one that was thought lost, a
longer one, a copy.  Each of them is a piece of the leader's log, so on whole logs a request that
the follower takes is `extend F L m`, and `extend` knows only how far the requests reach
(`extend_extend`).  After all of them the log is `extend F L` of the furthest end of a request, and
the commit index the highest one any of them has named (`takeAll_spec`); a maximum does not depend
on the order.
-/

set_option autoImplicit false

namespace DistLabs

variable {n : Nat} {Cmd : Type}

namespace Raft

section Handler

variable [Labgob (Saved n Cmd)]

/-- Handle requests one after the other, as long as each of them is answered with success. -/
def takeAll (rf : Raft n Cmd) : List (AppendEntriesArgs n Cmd) → Option (Raft n Cmd)
  | [] => some rf
  | args :: rest => do
    let (rf', reply) ← rf.appendEntries args
    if reply.success = true then rf'.takeAll rest else none

/-- The furthest index that a request reaches. -/
def furthest (reqs : List (AppendEntriesArgs n Cmd)) : Nat :=
  (reqs.map fun args ↦ args.prevLogIndex + args.entries.length).foldr max 0

/-- The highest commit index in a request. -/
def highest (reqs : List (AppendEntriesArgs n Cmd)) : Nat :=
  (reqs.map fun args ↦ args.leaderCommit).foldr max 0

variable {rf rf' : Raft n Cmd} {F L : List (Entry Cmd)} {reqs : List (AppendEntriesArgs n Cmd)}

/-- A piece of the leader's log, with a commit index within it. -/
structure Sound (L : List (Entry Cmd)) (args : AppendEntriesArgs n Cmd) : Prop
    extends Piece L args where
  /-- The commit index. -/
  commit : args.leaderCommit ≤ args.prevLogIndex + args.entries.length

/-- **What a follower makes of its leader's requests.** -/
theorem takeAll_spec (hlog : rf.log ≠ []) (hF : rf.HasLog F) (hm : Matching F L)
    (hag : ∀ i < rf.snapIndex, F[i]? = L[i]?) (hreqs : ∀ args ∈ reqs, Sound L args)
    (h : rf.takeAll reqs = some rf') :
    rf'.snapIndex = rf.snapIndex ∧ rf'.get rf.snapIndex = rf.get rf.snapIndex ∧
      rf'.HasLog (extend F L (furthest reqs)) ∧
      rf'.commitIndex = max rf.commitIndex (highest reqs) := by
  induction reqs generalizing rf F with
  | nil =>
    obtain rfl := Option.some_inj.mp h
    refine ⟨rfl, rfl, ?_, (Nat.max_zero _).symm⟩
    rwa [furthest, List.map_nil, List.foldr_nil, extend, if_pos (Nat.zero_le _)]
  | cons args reqs ih =>
    obtain ⟨⟨rf₁, reply⟩, happ, h⟩ := Option.bind_eq_some_iff.mp h
    dsimp only at h
    split at h
    swap
    · simp at h
    next hok =>
    have hargs := hreqs args (by simp)
    have ht := took_of_success happ hok
    -- the snapshot covers a part that both logs have
    have hag₁ : ∀ i < rf₁.snapIndex,
        (extend F L (args.prevLogIndex + args.entries.length))[i]? = L[i]? := by
      intro i hi
      rw [ht.snapIndex] at hi
      have hsnap := le_commonTerms (sameTerms_of_getElem? (hF.snapIndex_le hlog) hag)
      rw [extend_getElem? hm (by omega), hag i hi]
    have hb := ht.get_le hlog (Nat.le_max_right args.prevLogIndex rf.snapIndex)
    have hlog₁ : rf₁.log ≠ [] := by
      obtain ⟨b, hb'⟩ := exists_get rf (Nat.le_refl _) (snapIndex_lt_logLength hlog)
      intro hnil
      rw [hb', get, hnil] at hb
      simp at hb
    obtain ⟨h1, h2, h3, h4⟩ := ih hlog₁ (ht.hasLog hlog hF hm hag hargs.toPiece)
      (matching_extend hm _) hag₁ (fun a ha ↦ hreqs a (List.mem_cons_of_mem _ ha)) h
    rw [ht.snapIndex] at h1 h2
    refine ⟨h1, h2.trans hb, ?_, ?_⟩
    · rwa [extend_extend hargs.length] at h3
    · rw [h4, ht.commitIndex_eq hlog hargs.commit, Nat.min_eq_left hargs.commit, Nat.max_assoc]
      rfl

/-- A moment of a leadership: a leader of term `T` that has the first `m` entries of the log `L` it
will end up with, and has committed no more than it has. -/
structure Leading (T : Int) (L : List (Entry Cmd)) (m : Nat) (ld : Raft n Cmd) : Prop where
  /-- The term. -/
  term : ld.currentTerm = T
  /-- The log grows towards `L`. -/
  length : m ≤ L.length
  /-- Its log now. -/
  log : ld.HasLog (L.take m)
  /-- Its commit index now. -/
  commit : ld.commitIndex ≤ m

omit [Labgob (Saved n Cmd)] in
theorem Leading.sound {T : Int} {m : Nat} {ld : Raft n Cmd} {i : Fin n}
    {args : AppendEntriesArgs n Cmd} (h : Leading T L m ld)
    (hsend : ld.singleAppend i = some (some (.append args))) : Sound L args := by
  obtain ⟨hpiece, hend, hcommit⟩ := piece_of_singleAppend h.log h.length hsend
  exact ⟨hpiece, by rw [hend, hcommit]; exact h.commit⟩

theorem takeAll_perm_of_sound {reqs' : List (AppendEntriesArgs n Cmd)} {rf₁ rf₂ : Raft n Cmd}
    (hlog : rf.log ≠ []) (hF : rf.HasLog F) (hm : Matching F L)
    (hag : ∀ i < rf.snapIndex, F[i]? = L[i]?) (hsound : ∀ args ∈ reqs, Sound L args)
    (hperm : reqs.Perm reqs') (h₁ : rf.takeAll reqs = some rf₁) (h₂ : rf.takeAll reqs' = some rf₂) :
    rf₁.log = rf₂.log ∧ rf₁.commitIndex = rf₂.commitIndex := by
  have hfar : furthest reqs = furthest reqs' := (hperm.map _).foldr_eq 0
  have hhigh : highest reqs = highest reqs' := (hperm.map _).foldr_eq 0
  obtain ⟨hs₁, hb₁, hl₁, hc₁⟩ := takeAll_spec hlog hF hm hag hsound h₁
  obtain ⟨hs₂, hb₂, hl₂, hc₂⟩ := takeAll_spec hlog hF hm hag
    (fun args hmem ↦ hsound args (hperm.mem_iff.mpr hmem)) h₂
  obtain ⟨b, hb⟩ := exists_get rf (Nat.le_refl _) (snapIndex_lt_logLength hlog)
  constructor
  · rw [hl₁.log_eq (b := b) (by rw [hs₁, hb₁, hb]), hl₂.log_eq (b := b) (by rw [hs₂, hb₂, hb]),
      hs₁, hs₂,
      hfar]
  · rw [hc₁, hc₂, hhigh]

/-- **The order of one leader's requests does not matter.**  The follower's whole log matches the
leader's, and is the leader's through the follower's snapshot.  The requests are built by the leader
at any moments of its term, from any `nextIndex`.  Any two orders of handling them in which all of
them are answered with success leave the follower with the same log and the same commit index. -/
theorem takeAll_perm {T : Int} {reqs' : List (AppendEntriesArgs n Cmd)} {rf₁ rf₂ : Raft n Cmd}
    (hlog : rf.log ≠ []) (hF : rf.HasLog F) (hm : Matching F L)
    (hag : ∀ i < rf.snapIndex, F[i]? = L[i]?)
    (hreqs : ∀ args ∈ reqs, ∃ ld m i, Leading T L m ld ∧
      ld.singleAppend i = some (some (.append args)))
    (hperm : reqs.Perm reqs') (h₁ : rf.takeAll reqs = some rf₁) (h₂ : rf.takeAll reqs' = some rf₂) :
    rf₁.log = rf₂.log ∧ rf₁.commitIndex = rf₂.commitIndex := by
  refine takeAll_perm_of_sound hlog hF hm hag (fun args hmem ↦ ?_) hperm h₁ h₂
  obtain ⟨ld, m, i, hlead, hsend⟩ := hreqs args hmem
  exact hlead.sound hsend

end Handler

/-- The log a leader of term `2` will end up with. -/
def ofTermTwo : List (Entry Nat) := [⟨1, some 10⟩, ⟨2, some 21⟩, ⟨2, some 22⟩]

/-- That leader, when it has the first `m` entries, and is about to send from index `next` on. -/
def leaderOfTermTwo (m : Nat) (next : Int) (commitIndex : Nat) : Raft 3 Nat :=
  { (fresh 0 .empty : Raft 3 Nat) with
    currentTerm := 2, state := .leader, log := ⟨-1, none⟩ :: ofTermTwo.take m
    nextIndex := some fun _ ↦ next, matchIndex := some fun _ ↦ 0, commitIndex := commitIndex }

theorem leading_termTwo {m commitIndex : Nat} (next : Int) (hm : m ≤ ofTermTwo.length)
    (hc : commitIndex ≤ m) : Leading 2 ofTermTwo m (leaderOfTermTwo m next commitIndex) := by
  refine ⟨rfl, hm, ⟨fun i hi ↦ ?_, fun h0 ↦ absurd h0 (Nat.lt_irrefl 0)⟩, hc⟩
  cases i with
  | zero => exact absurd hi (Nat.lt_irrefl 0)
  | succ i => rfl

/-- A follower with a snapshot through index `1` and an entry that never was committed. -/
def straying : Raft 3 Nat := { (fresh 1 .empty : Raft 3 Nat) with
  currentTerm := 1, log := [⟨1, none⟩, ⟨1, some 11⟩], snapIndex := 1, commitIndex := 1
  lastApplied := 1 }

/-- The leader sends two requests, the second of them with one more entry, and they arrive in either
order. -/
theorem takeAll_perm_straying : ∃ short long rf₁ rf₂,
    (leaderOfTermTwo 2 1 1).singleAppend 1 = some (some (.append short)) ∧
    (leaderOfTermTwo 3 2 2).singleAppend 1 = some (some (.append long)) ∧
    straying.takeAll [short, long] = some rf₁ ∧ straying.takeAll [long, short] = some rf₂ ∧
    rf₁.log = rf₂.log ∧ rf₁.commitIndex = rf₂.commitIndex := by
  obtain ⟨rf₁, h₁⟩ := Option.isSome_iff_exists.mp (show (straying.takeAll
    [⟨2, 0, 0, -1, [⟨1, some 10⟩, ⟨2, some 21⟩], 1⟩,
      ⟨2, 0, 1, 1, [⟨2, some 21⟩, ⟨2, some 22⟩], 2⟩]).isSome = true by decide +kernel)
  obtain ⟨rf₂, h₂⟩ := Option.isSome_iff_exists.mp (show (straying.takeAll
    [⟨2, 0, 1, 1, [⟨2, some 21⟩, ⟨2, some 22⟩], 2⟩,
      ⟨2, 0, 0, -1, [⟨1, some 10⟩, ⟨2, some 21⟩], 1⟩]).isSome = true by decide +kernel)
  have hF : straying.HasLog [⟨1, some 10⟩, ⟨1, some 11⟩] := by
    refine ⟨fun i hi ↦ ?_, fun _ b hb ↦ ⟨_, rfl, ?_⟩⟩
    · obtain ⟨j, rfl⟩ : ∃ j, i = j + 2 := ⟨i - 2, by have : 1 < i := hi; omega⟩
      rfl
    · rw [← Option.some_inj.mp hb]
  have hm : Matching [⟨1, some 10⟩, ⟨1, some 11⟩] ofTermTwo := by
    intro i e e' he he' hterm j hj
    obtain rfl | rfl | hi : i = 0 ∨ i = 1 ∨ 2 ≤ i := by omega
    · obtain rfl := Nat.le_zero.mp hj
      rfl
    · obtain rfl := Option.some_inj.mp he
      obtain rfl := Option.some_inj.mp he'
      exact absurd hterm (by decide)
    · rw [List.getElem?_eq_none hi] at he
      simp at he
  refine ⟨_, _, rf₁, rf₂, rfl, rfl, h₁, h₂, takeAll_perm (T := 2) (by decide) hF hm ?_ ?_
    (List.Perm.swap ..) h₁ h₂⟩
  · intro i hi
    obtain rfl : i = 0 := Nat.lt_one_iff.mp hi
    rfl
  · intro args hmem
    rcases List.mem_pair.mp hmem with rfl | rfl
    · exact ⟨_, 2, 1, leading_termTwo 1 (by decide) (by decide), rfl⟩
    · exact ⟨_, 3, 1, leading_termTwo 2 (by decide) (by decide), rfl⟩

end Raft

/-! ## In a cluster -/

section Rel

variable {g : RaftLedger n Cmd} {v : Fin n} {rf : Raft n Cmd}

theorem ServerRel.hasLog (h : ServerRel g v rf) : rf.HasLog (g.log v) := by
  refine ⟨fun i hi ↦ h.get_eq hi, fun hpos b hb ↦ ?_⟩
  have hle := h.snapIndex_le
  obtain ⟨e, he⟩ : ∃ e, (g.log v)[rf.snapIndex - 1]? = some e :=
    ⟨_, List.getElem?_eq_getElem (by omega)⟩
  refine ⟨e, he, (h.get_term hb).trans (Ledger.endTerm_of_getElem? (k := rf.snapIndex - 1) ?_ ?_)⟩
  · rw [List.getElem?_take_of_lt (by omega), he]
  · rw [List.length_take]
    omega

/-- A leader is `Leading`. -/
theorem ServerRel.leading (h : ServerRel g v rf) (hi : g.Inv) (hs : rf.state = .leader) :
    rf.Leading rf.currentTerm (g.leaderLog rf.currentTerm) (g.leaderLog rf.currentTerm).length := by
  have hlog := (h.leader hs).log
  refine ⟨rfl, Nat.le_refl _, ?_, ?_⟩
  · rw [List.take_length, hlog]
    exact h.hasLog
  · rw [hlog]
    exact h.commitIndex_le hi

/-- The log of a server of an older term matches a leader's. -/
theorem ServerRel.matching (h : ServerRel g v rf) (hi : g.Inv) {T : Int} (hT : rf.currentTerm ≤ T)
    (hw : g.winner T ≠ none) : Matching (g.log v) (g.leaderLog T) := by
  have hpast := hi.past_agree (h.term.le.trans hT) hw
  intro i e e' he he' hterm j hj
  rcases Nat.lt_or_ge j (g.snap v) with hlt | hge
  · exact hpast j (Nat.zero_le _) hlt
  · exact hi.agree_of_term (hge.trans hj) he he' hterm j hge (by omega)

theorem AppendRel.sound {w : Fin n} {args : AppendEntriesArgs n Cmd} (h : AppendRel g w v args) :
    Raft.Sound (g.leaderLog args.term) args := by
  refine ⟨⟨h.length, h.entries, fun hpos ↦ ?_⟩, h.commit_le⟩
  have hlen := h.length
  obtain ⟨e, he⟩ : ∃ e, (g.leaderLog args.term)[args.prevLogIndex - 1]? = some e :=
    ⟨_, List.getElem?_eq_getElem (by omega)⟩
  exact ⟨e, he, h.prevLogTerm_eq hpos he⟩

end Rel

namespace Cluster

variable [Labgob (Saved n Cmd)] {σ : Cluster n Cmd}

/-- **In a cluster whose elections are won by majorities**, the `AppendEntries` requests of one term
that were ever sent to a server can be handled by it in any order. -/
theorem appends_in_any_order (h : (machine n Cmd).Reach (fun _ _ σ' ↦ σ'.MajorityBacked) σ)
    {v : Fin n} {T : Int} {reqs reqs' : List (AppendEntriesArgs n Cmd)}
    (hreqs : ∀ args ∈ reqs, args.term = T ∧ ∃ call ∈ σ.calls, call.callee = v ∧
      ∃ k reply, call.rpc = .append k args reply)
    (hperm : reqs.Perm reqs') {rf₁ rf₂ : Raft n Cmd} (h₁ : (σ.node v).rf.takeAll reqs = some rf₁)
    (h₂ : (σ.node v).rf.takeAll reqs' = some rf₂) :
    rf₁.log = rf₂.log ∧ rf₁.commitIndex = rf₂.commitIndex := by
  obtain ⟨g, hg, -⟩ := rel_of_reach (fun _ _ _ hp ↦ hp) h
  have hv := (hg.node v).server
  have hrel : ∀ args ∈ reqs, args.term = T ∧ ∃ w, AppendRel g w v args := by
    intro args hmem
    obtain ⟨hT, call, hcall, rfl, k, reply, hr⟩ := hreqs args hmem
    have hreq := hg.request call hcall
    rw [hr] at hreq
    exact ⟨hT, _, hreq⟩
  cases reqs with
  | nil =>
    obtain rfl := List.nil_perm.mp hperm
    obtain rfl := Option.some_inj.mp h₁
    obtain rfl := Option.some_inj.mp h₂
    exact ⟨rfl, rfl⟩
  | cons args rest =>
    -- the first request was taken, so the term is not older than the server's
    obtain ⟨hT, w, hreq⟩ := hrel args (by simp)
    have hle : (σ.node v).rf.currentTerm ≤ T := by
      obtain ⟨⟨rf, reply⟩, happ, hrest⟩ := Option.bind_eq_some_iff.mp h₁
      dsimp only at hrest
      split at hrest
      · next hok => exact hT ▸ (Raft.took_of_success happ hok).term_le
      · simp at hrest
    have hwin : g.winner T ≠ none := by rw [← hT, hreq.winner]; simp
    obtain ⟨b, hlog, -⟩ := hv.log
    have hpast := hg.inv.past_agree (hv.term.le.trans hle) hwin
    rw [hv.snap] at hpast
    refine Raft.takeAll_perm_of_sound (by rw [hlog]; simp) hv.hasLog (hv.matching hg.inv hle hwin)
      (fun i hi ↦ hpast i (Nat.zero_le _) hi) (fun args hmem ↦ ?_) hperm h₁ h₂
    obtain ⟨hT', w', hreq'⟩ := hrel args hmem
    exact hT' ▸ hreq'.sound

end Cluster

end DistLabs
