import DistLabs.Raft.Compaction

/-!
# What a successful `AppendEntries` does

`appendEntries` answers with success on three paths: the snapshot covers the whole request, it
covers a part of it, or the entry at `prevLogIndex` is there and has the right term.  All three do
one and the same thing to the log, `mergedLog`, and `Took rf args rf'` says it for all of them:
behind the `seam`, the later one of `prevLogIndex` and `snapIndex`, the log is reconciled with the
entries the request has there.

What that means index by index is read off `reconcile`: nothing changes through the seam
(`Took.get_le`), behind it every entry of the request finds its term (`Took.get_term`), and what the
server had stays, or ends with the request, depending on whether some term differed
(`Took.get_of_agree`, `Took.of_differs`).  A second copy of the request finds nothing to do
(`Took.again`).
-/

set_option autoImplicit false

namespace DistLabs

variable {n : Nat} {Cmd : Type}

/-! ## Reconciling twice -/

theorem SameTerms.term_eq {j k : Nat} {l l' : List (Entry Cmd)} {e e' : Entry Cmd}
    (h : SameTerms j l l') (hk : k < j) (he : l[k]? = some e) (he' : l'[k]? = some e') :
    e.term = e'.term := by
  obtain ⟨x, x', hx, hx', hterm⟩ := h k hk
  rw [he, Option.some_inj] at hx
  rw [he', Option.some_inj] at hx'
  rw [hx, hx', hterm]

/-- A list that agrees with all of `yours` is kept. -/
theorem reconcile_of_sameTerms {mine yours : List (Entry Cmd)}
    (h : SameTerms yours.length mine yours) : reconcile mine yours = mine := by
  rcases reconcile_cases mine yours with ⟨heq, -⟩ | ⟨j, hj, -, -, hend, -⟩
  · exact heq
  · rcases hend with rfl | ⟨x, x', hx, hx', hne⟩
    · obtain ⟨e, -, he, -⟩ := h _ hj
      exact absurd (List.getElem?_eq_some_iff.mp he).1 (by omega)
    · exact absurd (h.term_eq hj hx hx') hne

/-- From the first disagreement on, `yours` is taken. -/
theorem reconcile_of_first {mine yours : List (Entry Cmd)} {j : Nat} {e e' : Entry Cmd}
    (h : SameTerms j mine yours) (he : mine[j]? = some e) (he' : yours[j]? = some e')
    (hne : e.term ≠ e'.term) : reconcile mine yours = mine.take j ++ yours.drop j := by
  have hj := (List.getElem?_eq_some_iff.mp he).1
  rcases reconcile_cases mine yours with ⟨-, hsame⟩ | ⟨j₀, -, -, hsame, hend, heq⟩
  · exact absurd (hsame.term_eq (List.getElem?_eq_some_iff.mp he').1 he he') hne
  rcases Nat.lt_trichotomy j j₀ with hlt | rfl | hgt
  · exact absurd (hsame.term_eq hlt he he') hne
  · exact heq
  · obtain ⟨x, x', hx, hx', hxx⟩ := hend.resolve_left (by omega)
    exact absurd (h.term_eq hgt hx hx') hxx

theorem reconcile_twice (mine yours : List (Entry Cmd)) :
    reconcile (reconcile mine yours) yours = reconcile mine yours := by
  refine reconcile_of_sameTerms fun k hk ↦ ?_
  have hyours := List.getElem?_eq_getElem hk
  obtain ⟨e, he, hterm⟩ := reconcile_term mine hyours
  exact ⟨e, _, he, hyours, hterm⟩

namespace Raft

/-! ## The requests that are taken -/

/-- The last index before those at which a request is reconciled with the log. -/
def seam (rf : Raft n Cmd) (args : AppendEntriesArgs n Cmd) : Nat :=
  max args.prevLogIndex rf.snapIndex

/-- The server's entries behind the seam. -/
def mine (rf : Raft n Cmd) (args : AppendEntriesArgs n Cmd) : List (Entry Cmd) :=
  rf.log.drop (rf.seam args + 1 - rf.snapIndex)

/-- The request's entries behind the seam. -/
def yours (rf : Raft n Cmd) (args : AppendEntriesArgs n Cmd) : List (Entry Cmd) :=
  args.entries.drop (rf.snapIndex - args.prevLogIndex)

variable {rf rf' : Raft n Cmd} {args : AppendEntriesArgs n Cmd}

theorem mine_getElem? (j : Nat) : (rf.mine args)[j]? = rf.get (rf.seam args + 1 + j) := by
  have hle : rf.snapIndex ≤ rf.seam args := Nat.le_max_right ..
  rw [mine, List.getElem?_drop, get, if_neg (by omega)]
  congr 1
  omega

theorem yours_getElem? (j : Nat) :
    (rf.yours args)[j]? = args.entries[rf.seam args - args.prevLogIndex + j]? := by
  rw [yours, List.getElem?_drop, seam]
  congr 1
  omega

/-- The server and the request disagree about the term at the request's `k`-th index, which the
snapshot does not cover. -/
def Differs (rf : Raft n Cmd) (args : AppendEntriesArgs n Cmd) (k : Nat) : Prop :=
  rf.snapIndex < args.prevLogIndex + k + 1 ∧ ∃ held e,
    rf.get (args.prevLogIndex + k + 1) = some held ∧ args.entries[k]? = some e ∧ held.term ≠ e.term

/-- The indexes that the snapshot does not cover are those behind the seam. -/
theorem exists_behind_seam (k : Nat) (hk : rf.snapIndex < args.prevLogIndex + k + 1) :
    ∃ j, k = rf.seam args - args.prevLogIndex + j := by
  refine ⟨k - (rf.seam args - args.prevLogIndex), ?_⟩
  rw [seam]
  omega

theorem behind_seam (j : Nat) : args.prevLogIndex + (rf.seam args - args.prevLogIndex + j) + 1 =
    rf.seam args + 1 + j := by
  rw [seam]
  omega

theorem differs_iff (j : Nat) : rf.Differs args (rf.seam args - args.prevLogIndex + j) ↔
    ∃ held e, (rf.mine args)[j]? = some held ∧ (rf.yours args)[j]? = some e ∧
      held.term ≠ e.term := by
  have hle : rf.snapIndex ≤ rf.seam args := Nat.le_max_right ..
  rw [Differs, behind_seam, mine_getElem?, yours_getElem?]
  exact and_iff_right (by omega)

section Took

variable [Labgob (Saved n Cmd)]

/-- **The server has taken the request**: what is the same on all paths that end in success. -/
structure Took (rf : Raft n Cmd) (args : AppendEntriesArgs n Cmd) (rf' : Raft n Cmd) : Prop where
  /-- The request is not too old. -/
  term_le : rf.currentTerm ≤ args.term
  /-- Its `prevLogIndex` is covered, or has the right term. -/
  prev : args.prevLogIndex ≤ rf.snapIndex ∨
    ∃ prev, rf.get args.prevLogIndex = some prev ∧ prev.term = args.prevLogTerm
  /-- The term is the leader's. -/
  currentTerm : rf'.currentTerm = args.term
  /-- The vote is forgotten if the term is new. -/
  votedFor : rf'.votedFor = (rf.heedLeader args.term).votedFor
  /-- A candidate, or a server of an older term, is a follower now. -/
  state : rf'.state = (rf.heedLeader args.term).state
  /-- The snapshot stays. -/
  snapIndex : rf'.snapIndex = rf.snapIndex
  /-- The log is reconciled. -/
  log : rf'.log = rf.mergedLog args
  /-- The commit index follows the leader's. -/
  commitIndex : rf'.commitIndex = if args.leaderCommit > rf.commitIndex then
    min args.leaderCommit (rf'.logLength - 1) else rf.commitIndex

/-- A request that is answered with success is taken. -/
theorem took_of_success {reply : AppendEntriesReply} (h : rf.appendEntries args = some (rf', reply))
    (hs : reply.success = true) : rf.Took args rf' := by
  rcases appendEntries_spec h with ⟨-, href⟩ | ⟨-, -, hterm, hprev, w, rf₁, hrf₁, rfl⟩
  · rcases href with ⟨-, rfl⟩ | ⟨-, rfl⟩ | ⟨_, _, -, -, -, rfl⟩ <;> simp at hs
  have hmax : max rf.currentTerm args.term = args.term := max_eq_right hterm
  rcases hrf₁ with ⟨rfl, hlog⟩ | rfl
  · exact ⟨hterm, hprev, by simp [hmax], rfl, rfl, by simp, by simp [hlog], rfl⟩
  · exact ⟨hterm, hprev, by simp [persist, hmax], rfl, rfl, by simp [persist], by simp [persist],
      rfl⟩

/-- A request that can be taken is answered with success. -/
theorem appendEntries_success (hterm : rf.currentTerm ≤ args.term)
    (hprev : args.prevLogIndex ≤ rf.snapIndex ∨
      ∃ prev, rf.get args.prevLogIndex = some prev ∧ prev.term = args.prevLogTerm) :
    ∃ rf', rf.appendEntries args = some (rf', { term := args.term, success := true }) := by
  have hcur : ¬ args.term < (rf.heedLeader args.term).currentTerm := by simpa using hterm
  obtain ⟨⟨rf', reply⟩, h⟩ := exists_appendEntries rf args
  -- the answer is that of `taken`, and its term is the leader's
  have htaken : ∃ rf₁ : Raft n Cmd, reply = { term := rf₁.currentTerm, success := true } := by
    rcases Nat.lt_or_ge rf.snapIndex args.prevLogIndex with hlt | hcov
    · obtain ⟨e, he, hp⟩ := hprev.resolve_left (by omega)
      rw [appendEntries_of_normal hcur hlt he hp, Option.map_eq_some_iff] at h
      obtain ⟨rf₁, -, h⟩ := h
      exact ⟨rf₁, (Prod.mk.inj h).2.symm⟩
    · rw [appendEntries_of_covered hcur hcov, Option.map_eq_some_iff] at h
      obtain ⟨rf₁, -, h⟩ := h
      exact ⟨rf₁, (Prod.mk.inj h).2.symm⟩
  obtain ⟨rf₁, rfl⟩ := htaken
  rcases appendEntries_spec h with ⟨-, href⟩ | ⟨-, ht, -⟩
  · rcases href with ⟨-, hr⟩ | ⟨-, hr⟩ | ⟨_, _, -, -, -, hr⟩ <;> simp at hr
  · exact ⟨rf', by rw [h, ← ht]⟩

namespace Took

/-! ## Index by index -/

/-- The log reaches the seam. -/
theorem seam_lt (h : rf.Took args rf') (hlog : rf.log ≠ []) : rf.seam args < rf.logLength := by
  have hsnap := snapIndex_lt_logLength hlog
  rw [seam]
  rcases h.prev with hle | ⟨prev, hprev, -⟩
  · omega
  · have := get_lt_logLength hprev
    omega

/-- Nothing changes through the seam. -/
theorem get_le (h : rf.Took args rf') (hlog : rf.log ≠ []) {i : Nat} (hi : i ≤ rf.seam args) :
    rf'.get i = rf.get i := by
  have hlen := h.seam_lt hlog
  rw [logLength] at hlen
  rw [get, get, h.snapIndex, h.log, mergedLog, ← seam]
  split
  · rfl
  · rw [List.getElem?_append_left (by rw [List.length_take]; omega),
      List.getElem?_take_of_lt (by omega)]

/-- Behind it the two lists are reconciled. -/
theorem get_gt (h : rf.Took args rf') (hlog : rf.log ≠ []) (j : Nat) :
    rf'.get (rf.seam args + 1 + j) = (reconcile (rf.mine args) (rf.yours args))[j]? := by
  have hlen := h.seam_lt hlog
  have hle : rf.snapIndex ≤ rf.seam args := Nat.le_max_right ..
  rw [logLength] at hlen
  rw [get, h.snapIndex, if_neg (by omega), h.log, mergedLog, ← seam, ← mine, ← yours,
    List.getElem?_append_right (by rw [List.length_take]; omega), List.length_take]
  congr 1
  omega

/-- The request's entries find their terms. -/
theorem get_term (h : rf.Took args rf') (hlog : rf.log ≠ []) {k : Nat} {e : Entry Cmd}
    (he : args.entries[k]? = some e) (hk : rf.snapIndex < args.prevLogIndex + k + 1) :
    ∃ e', rf'.get (args.prevLogIndex + k + 1) = some e' ∧ e'.term = e.term := by
  obtain ⟨j, rfl⟩ := exists_behind_seam k hk
  rw [← yours_getElem?] at he
  rw [behind_seam, h.get_gt hlog]
  exact reconcile_term _ he

/-- Where no term differs, the server keeps what it has. -/
theorem get_of_agree (h : rf.Took args rf') (hlog : rf.log ≠ []) (hag : ∀ k, ¬ rf.Differs args k)
    {i : Nat} {e : Entry Cmd} (he : rf.get i = some e) : rf'.get i = some e := by
  rcases Nat.lt_or_ge (rf.seam args) i with hgt | hle
  swap
  · rw [h.get_le hlog hle, he]
  obtain ⟨j, rfl⟩ : ∃ j, i = rf.seam args + 1 + j := ⟨i - (rf.seam args + 1), by omega⟩
  rw [← mine_getElem?] at he
  rw [h.get_gt hlog]
  rcases reconcile_cases (rf.mine args) (rf.yours args) with ⟨heq, -⟩ | ⟨j₀, -, -, -, hend, heq⟩
  · rw [heq, he]
  rcases hend with rfl | hdiff
  · rw [heq, List.take_length, List.getElem?_append_left (List.getElem?_eq_some_iff.mp he).1, he]
  · exact absurd ((differs_iff j₀).mpr hdiff) (hag _)

/-- Where the terms differ first, the request takes over, and the log ends with it. -/
theorem of_differs (h : rf.Took args rf') (hlog : rf.log ≠ []) {k : Nat} (hk : rf.Differs args k)
    (hfirst : ∀ k' < k, ¬ rf.Differs args k') :
    rf'.logLength = args.prevLogIndex + args.entries.length + 1 ∧
    (∀ i < args.prevLogIndex + k + 1, rf'.get i = rf.get i) ∧
    ∀ k' ≥ k, rf'.get (args.prevLogIndex + k' + 1) = args.entries[k']? := by
  obtain ⟨j, rfl⟩ := exists_behind_seam k hk.1
  obtain ⟨held, e, hheld, he, hne⟩ := (differs_iff j).mp hk
  have hj := (List.getElem?_eq_some_iff.mp hheld).1
  have hj' := (List.getElem?_eq_some_iff.mp he).1
  have hsame : SameTerms j (rf.mine args) (rf.yours args) := by
    intro j₀ hj₀
    have hx := List.getElem?_eq_getElem (hj₀.trans hj)
    have hy := List.getElem?_eq_getElem (hj₀.trans hj')
    by_contra hno
    refine hfirst (rf.seam args - args.prevLogIndex + j₀) (by omega) ((differs_iff j₀).mpr ?_)
    exact ⟨_, _, hx, hy, fun hterm ↦ hno ⟨_, _, hx, hy, hterm⟩⟩
  have heq := reconcile_of_first hsame hheld he hne
  have htake : ((rf.mine args).take j).length = j := by
    rw [List.length_take]
    omega
  refine ⟨?_, fun i hi ↦ ?_, fun k' hk' ↦ ?_⟩
  · have hseam := h.seam_lt hlog
    have hle : rf.snapIndex ≤ rf.seam args := Nat.le_max_right ..
    rw [yours, List.length_drop] at hj'
    rw [logLength] at hseam
    rw [logLength, h.snapIndex, h.log, mergedLog, ← seam, ← mine, ← yours, heq, List.length_append,
      List.length_append, htake, List.length_take, List.length_drop, yours, List.length_drop]
    rw [seam] at hseam ⊢
    omega
  · rw [behind_seam] at hi
    rcases Nat.lt_or_ge (rf.seam args) i with hgt | hle
    · obtain ⟨j₀, rfl⟩ : ∃ j₀, i = rf.seam args + 1 + j₀ := ⟨i - (rf.seam args + 1), by omega⟩
      rw [h.get_gt hlog, heq, List.getElem?_append_left (by omega),
        List.getElem?_take_of_lt (by omega), mine_getElem?]
    · exact h.get_le hlog hle
  · obtain ⟨j₀, rfl⟩ : ∃ j₀, k' = rf.seam args - args.prevLogIndex + (j + j₀) :=
      ⟨k' - (rf.seam args - args.prevLogIndex + j), by omega⟩
    rw [behind_seam, h.get_gt hlog, heq, List.getElem?_append_right (by omega), htake,
      List.getElem?_drop, Nat.add_sub_cancel_left, yours_getElem?]

/-- The log reaches the end of the request. -/
theorem end_lt (h : rf.Took args rf') (hlog : rf.log ≠ []) :
    args.prevLogIndex + args.entries.length < rf'.logLength := by
  rcases Nat.lt_or_ge (rf.seam args) (args.prevLogIndex + args.entries.length) with hlt | hle
  · have hprev : args.prevLogIndex ≤ rf.seam args := Nat.le_max_left ..
    have hsnap : rf.snapIndex ≤ rf.seam args := Nat.le_max_right ..
    have hlast := List.getElem?_eq_getElem (l := args.entries) (i := args.entries.length - 1)
      (by omega)
    obtain ⟨e, he, -⟩ := h.get_term hlog hlast (by omega)
    have := get_lt_logLength he
    omega
  · obtain ⟨e, he⟩ := exists_get rf (Nat.le_max_right ..) (h.seam_lt hlog)
    have := get_lt_logLength ((h.get_le hlog (Nat.le_refl _)).trans he)
    omega

/-- **The commit rule**: where the leader's commit index lies within the request, the end of the
server's log is no bound. -/
theorem commitIndex_eq (h : rf.Took args rf') (hlog : rf.log ≠ [])
    (hle : args.leaderCommit ≤ args.prevLogIndex + args.entries.length) : rf'.commitIndex =
      max rf.commitIndex (min args.leaderCommit (args.prevLogIndex + args.entries.length)) := by
  have hlen := h.end_lt hlog
  rw [h.commitIndex]
  split <;> omega

/-! ## Once more -/

theorem mergedLog_eq (h : rf.Took args rf') (hlog : rf.log ≠ []) :
    rf'.mergedLog args = rf'.log := by
  have hlen := h.seam_lt hlog
  have hle : rf.snapIndex ≤ rf.seam args := Nat.le_max_right ..
  rw [logLength] at hlen
  have htake : (rf.log.take (rf.seam args + 1 - rf.snapIndex)).length =
      rf.seam args + 1 - rf.snapIndex := by
    rw [List.length_take]
    omega
  rw [mergedLog, h.snapIndex, h.log, mergedLog, ← seam, List.take_left' htake,
    List.drop_left' htake, reconcile_twice]

/-- A server that has taken a request takes it again, and is left as it is. -/
theorem again (h : rf.Took args rf') (hlog : rf.log ≠ []) :
    ∃ rf'', rf'.appendEntries args = some (rf'', { term := args.term, success := true }) ∧
      rf''.currentTerm = rf'.currentTerm ∧ rf''.votedFor = rf'.votedFor ∧
      rf''.state = rf'.state ∧ rf''.log = rf'.log ∧ rf''.snapIndex = rf'.snapIndex ∧
      rf''.commitIndex = rf'.commitIndex := by
  have hterm : rf'.currentTerm ≤ args.term := h.currentTerm.le
  have hprev : args.prevLogIndex ≤ rf'.snapIndex ∨
      ∃ prev, rf'.get args.prevLogIndex = some prev ∧ prev.term = args.prevLogTerm := by
    rw [h.snapIndex, h.get_le hlog (Nat.le_max_left ..)]
    exact h.prev
  obtain ⟨rf'', happ⟩ := appendEntries_success hterm hprev
  have h' := took_of_success happ rfl
  have hlog' : rf''.log = rf'.log := h'.log.trans (h.mergedLog_eq hlog)
  refine ⟨rf'', happ, h'.currentTerm.trans h.currentTerm.symm, ?_, ?_, hlog', h'.snapIndex, ?_⟩
  · rw [h'.votedFor, heedLeader_votedFor, seeTerm_of_le h.currentTerm.ge]
  · -- whoever has taken the request is no candidate
    have hcand : rf'.state ≠ .candidate := by
      rw [h.state, heedLeader]
      split
      · simp [newGen, persist]
      split
      · simp [toFollower]
      · next hle hno =>
        have := h.term_le
        exact fun hc ↦ hno ⟨hc, by omega⟩
    rw [h'.state, heedLeader, if_neg (by rw [h.currentTerm]; omega), if_neg (fun hc ↦ hcand hc.1)]
  · have hlen : rf''.logLength = rf'.logLength := by rw [logLength, logLength, hlog', h'.snapIndex]
    have hc := h.commitIndex
    rw [h'.commitIndex, hlen]
    split at hc <;> split <;> omega

end Took

/-- **What a successful `AppendEntries` does.**  Whatever the log and the snapshot of the server,
and whatever the request:

* the boundary and the entries through `prevLogIndex` stay as they are;
* every index of the request that the snapshot does not cover now has an entry with the request's
  term;
* if the terms the server had there were the same, it keeps all it had, also beyond the request;
* otherwise, from the first difference on the log is the request, and it ends there;
* the same request, handled once more, gets the same answer and leaves term, vote, role, log,
  snapshot and commit index as they are. -/
theorem appendEntries_effect {b : Entry Cmd} {reply : AppendEntriesReply}
    (hb : rf.get rf.snapIndex = some b) (h : rf.appendEntries args = some (rf', reply))
    (hs : reply.success = true) :
    (rf'.snapIndex = rf.snapIndex ∧ rf'.get rf.snapIndex = some b ∧
      ∀ i ≤ args.prevLogIndex, rf'.get i = rf.get i) ∧
    (∀ k e, args.entries[k]? = some e → rf.snapIndex < args.prevLogIndex + k + 1 →
      ∃ e', rf'.get (args.prevLogIndex + k + 1) = some e' ∧ e'.term = e.term) ∧
    ((∀ k, ¬ rf.Differs args k) → ∀ i e, rf.get i = some e → rf'.get i = some e) ∧
    (∀ k, rf.Differs args k → (∀ k' < k, ¬ rf.Differs args k') →
      rf'.logLength = args.prevLogIndex + args.entries.length + 1 ∧
      (∀ i < args.prevLogIndex + k + 1, rf'.get i = rf.get i) ∧
      ∀ k' ≥ k, rf'.get (args.prevLogIndex + k' + 1) = args.entries[k']?) ∧
    ∃ rf'', rf'.appendEntries args = some (rf'', reply) ∧
      rf''.currentTerm = rf'.currentTerm ∧ rf''.votedFor = rf'.votedFor ∧
      rf''.state = rf'.state ∧ rf''.log = rf'.log ∧ rf''.snapIndex = rf'.snapIndex ∧
      rf''.commitIndex = rf'.commitIndex := by
  have hlog : rf.log ≠ [] := by
    obtain ⟨-, hget⟩ := get_eq_some.mp hb
    exact List.ne_nil_of_length_pos (by have := (List.getElem?_eq_some_iff.mp hget).1; omega)
  have ht := took_of_success h hs
  have hreply : reply = { term := args.term, success := true } := by
    obtain ⟨_, h'⟩ := appendEntries_success ht.term_le ht.prev
    rw [h, Option.some_inj, Prod.mk.injEq] at h'
    exact h'.2
  refine ⟨⟨ht.snapIndex, ?_, fun i hi ↦ ?_⟩, fun k e he hk ↦ ht.get_term hlog he hk,
    fun hag i e he ↦ ht.get_of_agree hlog hag he, fun k hk hfirst ↦ ht.of_differs hlog hk hfirst,
    hreply ▸ ht.again hlog⟩
  · rw [ht.get_le hlog (Nat.le_max_right ..), hb]
  · exact ht.get_le hlog (hi.trans (Nat.le_max_left ..))

end Took

/-- A server with a snapshot through index `2`, and two entries of a leader that has lost its place.
-/
def conflicted : Raft 3 Nat := { (fresh 1 .empty : Raft 3 Nat) with
  currentTerm := 2, log := [⟨1, none⟩, ⟨1, some 13⟩, ⟨2, some 14⟩, ⟨2, some 15⟩]
  snapIndex := 2, commitIndex := 2, lastApplied := 2 }

/-- Its new leader sends three entries, of which the snapshot covers the first and the log has the
second. -/
def overwriting : AppendEntriesArgs 3 Nat :=
  ⟨3, 0, 1, 1, [⟨1, some 12⟩, ⟨1, some 13⟩, ⟨3, some 24⟩], 3⟩

/-- The first difference is at index `4`; the log ends there, although it went on to index `5`. -/
theorem appendEntries_effect_conflicted : ∃ rf', conflicted.appendEntries overwriting =
      some (rf', { term := 3, success := true }) ∧ rf'.logLength = 5 ∧
    rf'.get 3 = some ⟨1, some 13⟩ ∧ rf'.get 4 = some ⟨3, some 24⟩ ∧
    ∃ rf'', rf'.appendEntries overwriting = some (rf'', { term := 3, success := true }) ∧
      rf''.log = rf'.log := by
  have hterm : conflicted.currentTerm ≤ overwriting.term := by decide
  obtain ⟨rf', h⟩ := appendEntries_success hterm (Or.inl (by decide))
  obtain ⟨-, -, -, hdiff, rf'', happ, -, -, -, hlog, -⟩ :=
    appendEntries_effect (b := ⟨1, none⟩) rfl h rfl
  have htwo : conflicted.Differs overwriting 2 :=
    ⟨by decide, ⟨2, some 14⟩, ⟨3, some 24⟩, rfl, rfl, by decide⟩
  have hfirst : ∀ k < 2, ¬ conflicted.Differs overwriting k := by
    rintro k hk ⟨hsnap, held, e, hheld, he, hne⟩
    obtain rfl | rfl : k = 0 ∨ k = 1 := by omega
    · exact absurd hsnap (by decide)
    · obtain rfl := Option.some_inj.mp hheld
      obtain rfl := Option.some_inj.mp he
      exact hne rfl
  obtain ⟨hlen, hbefore, hafter⟩ := hdiff 2 htwo hfirst
  exact ⟨rf', h, hlen, (hbefore 3 (by decide)).trans rfl, hafter 2 (by decide), rf'', happ, hlog⟩

end Raft

/-! ## In a cluster -/

namespace Cluster

variable [Labgob (Saved n Cmd)] {σ σ' : Cluster n Cmd}

/-- **The follower's commit rule is the one of the comment.**  In a run whose elections are won by
majorities, a server that answers an `AppendEntries` with success moves its commit index to the
smaller one of the leader's commit index and the index of the last new entry, unless it is there
already.  `tryUpdateCommit` compares with the end of the local log instead, which may lie beyond the
request; but every request reaches the end of its leader's log, and so its leader's commit index. -/
theorem commit_rule (h : (machine n Cmd).Reach (fun _ _ σ' ↦ σ'.MajorityBacked) σ) {c k : Nat}
    {call : Call n Cmd} {args : AppendEntriesArgs n Cmd} {reply : AppendEntriesReply}
    (hs : σ.step (.deliver c) = some σ') (hc : σ'.calls[c]? = some call)
    (hr : call.rpc = .append k args (some reply)) (hok : reply.success = true) :
    (σ'.node call.callee).rf.commitIndex = max (σ.node call.callee).rf.commitIndex
      (min args.leaderCommit (args.prevLogIndex + args.entries.length)) := by
  obtain ⟨g, hg, -⟩ := rel_of_reach (fun _ _ _ hp ↦ hp) h
  cases Trans.of_step hs with
  | deliverVote hc₀ _ _ | deliverInstall hc₀ _ _ =>
    rw [List.getElem?_set_self (List.getElem?_eq_some_iff.mp hc₀).1, Option.some_inj] at hc
    rw [← hc] at hr
    simp at hr
  | @deliverAppend _ k₀ call₀ args₀ rf reply₀ hc₀ hr₀ happ =>
    rw [List.getElem?_set_self (List.getElem?_eq_some_iff.mp hc₀).1, Option.some_inj] at hc
    subst hc
    simp only [Rpc.append.injEq, Option.some_inj] at hr
    obtain ⟨-, rfl, rfl⟩ := hr
    have hreq := hg.request call₀ (List.mem_of_getElem? hc₀)
    rw [hr₀] at hreq
    obtain ⟨b, hlog, -⟩ := (hg.node call₀.callee).server.log
    have htook := Raft.took_of_success happ hok
    change ((σ.setRf call₀.callee rf).node call₀.callee).rf.commitIndex = _
    rw [setRf_self]
    exact htook.commitIndex_eq (by rw [hlog]; simp) hreq.commit_le

/-- The leader has committed its first command with server `1` and sends server `2` its two
commands: only the first of them is committed. -/
theorem commit_rule_secondServer :
    ∃ σ σ' : Cluster 3 Nat, (machine 3 Nat).Reach (fun _ _ σ' ↦ σ'.MajorityBacked) σ ∧
      σ.step (.deliver 3) = some σ' ∧ (σ.node 2).rf.commitIndex = 0 ∧
      (σ'.node 2).rf.logLength = 3 ∧ (σ'.node 2).rf.commitIndex = 1 := by
  obtain ⟨σ, hσ, h0, σ', hs, hlen, hc⟩ :=
    Machine.exists_reach_of_exec (M := machine 3 Nat) (P := fun _ _ σ' ↦ σ'.MajorityBacked)
    (Q := fun σ ↦ (σ.node 2).rf.commitIndex = 0 ∧ ∃ σ' ∈ σ.step (.deliver 3),
      (σ'.node 2).rf.logLength = 3 ∧ σ'.calls[3]? = some ⟨0, 2, .append 1
        ⟨1, 0, 0, -1, [⟨1, some 10⟩, ⟨1, some 20⟩], 1⟩ (some { term := 1, success := true }), true⟩)
    (firstCommit ++ [.start 0 (some 20), .replicate 1]) (by decide +kernel)
  refine ⟨σ, σ', hσ, hs, h0, hlen, ?_⟩
  have hrule := commit_rule hσ hs hc rfl rfl
  rw [h0] at hrule
  exact hrule

end Cluster

end DistLabs
