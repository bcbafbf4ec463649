import DistLabs.Raft.Cluster
import Mathlib.Tactic.Tauto
import Mathlib.Tactic.SplitIfs

/-!
# What each section does

One theorem for each section that runs under the lock, saying everything the section can do to its
server.  The proofs about whole runs cite these and never look into the code again.

The heart of replication is the loop of `reconcileEntries`.  On lists it is the function
`reconcile`: keep your own entries as long as the terms agree, and take the other list from the
first disagreement — or from your own end — on (`reconcileEntries_spec`).
-/

set_option autoImplicit false

namespace DistLabs

variable {n : Nat} {Cmd : Type}

/-! ## Reconciling two lists of entries -/

/-- Keep `mine` while its terms agree with those of `yours`, then continue with `yours`; keep all
of `mine` where `yours` is used up first. -/
def reconcile : List (Entry Cmd) → List (Entry Cmd) → List (Entry Cmd)
  | [], yours => yours
  | m :: mine, [] => m :: mine
  | m :: mine, y :: yours =>
    if m.term = y.term then m :: reconcile mine yours else y :: yours

@[simp] theorem reconcile_nil (mine : List (Entry Cmd)) : reconcile mine [] = mine := by
  cases mine <;> rfl

/-- Two lists have the same terms at the positions below `j`. -/
def SameTerms (j : Nat) (l l' : List (Entry Cmd)) : Prop :=
  ∀ k < j, ∃ e e', l[k]? = some e ∧ l'[k]? = some e' ∧ e.term = e'.term

/-- **What reconciling does.**  Either all of `yours` agrees and nothing changes, or there is a
first position `j` — the end of `mine`, or a disagreement — from which `yours` is taken. -/
theorem reconcile_cases (mine yours : List (Entry Cmd)) :
    (reconcile mine yours = mine ∧ SameTerms yours.length mine yours) ∨
    ∃ j, j < yours.length ∧ j ≤ mine.length ∧ SameTerms j mine yours ∧
      (j = mine.length ∨ ∃ e e', mine[j]? = some e ∧ yours[j]? = some e' ∧ e.term ≠ e'.term) ∧
      reconcile mine yours = mine.take j ++ yours.drop j := by
  induction mine generalizing yours with
  | nil =>
    cases yours with
    | nil => exact Or.inl ⟨rfl, fun k hk ↦ absurd hk (by simp)⟩
    | cons y yours =>
      exact Or.inr ⟨0, by simp, by simp, fun k hk ↦ absurd hk (by omega), Or.inl rfl, rfl⟩
  | cons m mine ih =>
    cases yours with
    | nil => exact Or.inl ⟨rfl, fun k hk ↦ absurd hk (by simp)⟩
    | cons y yours =>
      by_cases hmy : m.term = y.term
      swap
      · refine Or.inr ⟨0, by simp, by simp, fun k hk ↦ absurd hk (by omega), Or.inr ?_, ?_⟩
        · exact ⟨m, y, rfl, rfl, hmy⟩
        · simp [reconcile, hmy]
      have hsame : ∀ {j}, SameTerms j mine yours → SameTerms (j + 1) (m :: mine) (y :: yours) := by
        intro j hj k hk
        cases k with
        | zero => exact ⟨m, y, rfl, rfl, hmy⟩
        | succ k => exact hj k (by omega)
      rcases ih yours with ⟨h1, h2⟩ | ⟨j, h1, h2, h3, h4, h5⟩
      · exact Or.inl ⟨by simp [reconcile, hmy, h1], hsame h2⟩
      · refine Or.inr ⟨j + 1, by simpa using h1, by simpa using h2, hsame h3, ?_, ?_⟩
        · rcases h4 with rfl | ⟨e, e', he, he', hne⟩
          · exact Or.inl rfl
          · exact Or.inr ⟨e, e', he, he', hne⟩
        · simp [reconcile, hmy, h5]

/-- Where `yours` has an entry, the result has one of the same term. -/
theorem reconcile_term (mine : List (Entry Cmd)) {yours : List (Entry Cmd)} {j : Nat}
    {e : Entry Cmd} (h : yours[j]? = some e) :
    ∃ e', (reconcile mine yours)[j]? = some e' ∧ e'.term = e.term := by
  have hj := (List.getElem?_eq_some_iff.mp h).1
  rcases reconcile_cases mine yours with ⟨heq, hsame⟩ | ⟨k, hk, hkm, hsame, -, heq⟩
  · obtain ⟨x, y, hx, hy, hxy⟩ := hsame j hj
    rw [h, Option.some_inj] at hy
    exact ⟨x, by rw [heq, hx], hy ▸ hxy⟩
  · rw [heq]
    rcases Nat.lt_or_ge j k with hlt | hge
    · obtain ⟨x, y, hx, hy, hxy⟩ := hsame j hlt
      rw [h, Option.some_inj] at hy
      refine ⟨x, ?_, hy ▸ hxy⟩
      rw [List.getElem?_append_left (by simp; omega), List.getElem?_take, if_pos hlt, hx]
    · refine ⟨e, ?_, rfl⟩
      rw [List.getElem?_append_right (by simp; omega), List.length_take, Nat.min_eq_left hkm,
        List.getElem?_drop, Nat.add_sub_cancel' hge, h]

namespace Raft

/-! ## Readers of the log -/

theorem get_eq_some {rf : Raft n Cmd} {i : Nat} {e : Entry Cmd} :
    rf.get i = some e ↔ rf.snapIndex ≤ i ∧ rf.log[i - rf.snapIndex]? = some e := by
  rw [get]
  split
  · next h => simp; omega
  · next h => simp; omega

theorem get_lt_logLength {rf : Raft n Cmd} {i : Nat} {e : Entry Cmd} (h : rf.get i = some e) :
    i < rf.logLength := by
  obtain ⟨h1, h2⟩ := get_eq_some.mp h
  have := (List.getElem?_eq_some_iff.mp h2).1
  rw [logLength]
  omega

theorem entriesFrom_eq_some {rf : Raft n Cmd} {i : Nat} {l : List (Entry Cmd)} :
    rf.entriesFrom i = some l ↔
      rf.snapIndex ≤ i ∧ i ≤ rf.logLength ∧ l = rf.log.drop (i - rf.snapIndex) := by
  rw [entriesFrom, logLength]
  split
  · next h => simp; omega
  · next h =>
    rw [Option.some_inj, eq_comm]
    exact ⟨fun h' ↦ ⟨by omega, by omega, h'⟩, fun h' ↦ h'.2.2⟩

/-! ## The commit indexes -/

theorem countMatch_eq_some {rf : Raft n Cmd} {N c : Nat} :
    rf.countMatch N = some c ↔ ∃ m, rf.matchIndex = some m ∧
      c = (List.finRange n).countP fun i ↦ i = rf.me ∨ m i ≥ (N : Int) := by
  simp only [countMatch, Option.bind_eq_bind, Option.bind_eq_some_iff, Option.pure_def,
    Option.some_inj]
  exact exists_congr fun m ↦ and_congr_right fun _ ↦ eq_comm

/-- **`updateCommitIndex`** leaves the server as it is, or moves the commit index to an index of
the current term that a majority holds. -/
theorem updateCommitFrom_spec {rf rf' : Raft n Cmd} {N : Nat}
    (h : rf.updateCommitFrom N = some rf') :
    rf' = rf ∨ ∃ M e c, rf.commitIndex < M ∧ rf.snapIndex < M ∧ rf.countMatch M = some c ∧
      n / 2 < c ∧ rf.get M = some e ∧ e.term = rf.currentTerm ∧
      rf' = bEffortKick { rf with commitIndex := M } := by
  induction N with
  | zero =>
    rw [updateCommitFrom, Option.some_inj] at h
    exact Or.inl h.symm
  | succ N ih =>
    rw [updateCommitFrom] at h
    split at h
    swap
    · exact Or.inl (Option.some_inj.mp h).symm
    next hN =>
    simp only [Option.bind_eq_bind, Option.bind_eq_some_iff, Option.pure_def] at h
    obtain ⟨c, hc, h⟩ := h
    split at h
    swap
    · exact ih h
    next hmaj =>
    obtain ⟨e, he, h⟩ := Option.bind_eq_some_iff.mp h
    split at h
    · next hte =>
      refine Or.inr ⟨N + 1, e, c, hN.1, hN.2, hc, hmaj, he, hte, ?_⟩
      exact (Option.some_inj.mp h).symm
    · exact ih h

/-- **`tryUpdateCommit`** changes the commit index and the token, and nothing else. -/
theorem tryUpdateCommit_spec (rf : Raft n Cmd) (lc : Nat) :
    ∃ w, rf.tryUpdateCommit lc = { rf with
      commitIndex := if lc > rf.commitIndex then min lc (rf.logLength - 1) else rf.commitIndex
      wakeCh := w } := by
  rw [tryUpdateCommit]
  split
  · dsimp only
    split
    · exact ⟨true, rfl⟩
    · exact ⟨rf.wakeCh, rfl⟩
  · exact ⟨rf.wakeCh, rfl⟩

/-! ## Reconciling the log -/

theorem reconcileLoop_spec {rf rf' : Raft n Cmd} {i : Nat} {es rest : List (Entry Cmd)}
    (hi : rf.snapIndex ≤ i) (h : rf.reconcileLoop i es = some (rf', rest)) :
    rf' = { rf with log := rf'.log } ∧
      rf'.log ++ rest = rf.log.take (i - rf.snapIndex) ++
        reconcile (rf.log.drop (i - rf.snapIndex)) es := by
  induction es generalizing i with
  | nil =>
    rw [reconcileLoop, Option.some_inj, Prod.mk.injEq] at h
    obtain ⟨rfl, rfl⟩ := h
    exact ⟨rfl, by simp⟩
  | cons e es ih =>
    rw [reconcileLoop] at h
    split at h
    swap
    · next hlen =>
      rw [Option.some_inj, Prod.mk.injEq] at h
      obtain ⟨rfl, rfl⟩ := h
      rw [logLength] at hlen
      refine ⟨rfl, ?_⟩
      rw [List.drop_eq_nil_of_le (by omega), List.take_of_length_le (by omega), reconcile]
    next hlen =>
    obtain ⟨mine, hmine, h⟩ := Option.bind_eq_some_iff.mp h
    obtain ⟨-, hget⟩ := get_eq_some.mp hmine
    have hdrop : rf.log.drop (i - rf.snapIndex) =
        mine :: rf.log.drop (i - rf.snapIndex + 1) := by
      obtain ⟨hlt, hval⟩ := List.getElem?_eq_some_iff.mp hget
      rw [List.drop_eq_getElem_cons hlt, hval]
    split at h
    · next hne =>
      rw [Option.pure_def, Option.some_inj, Prod.mk.injEq] at h
      obtain ⟨rfl, rfl⟩ := h
      refine ⟨rfl, ?_⟩
      simp [hdrop, reconcile, hne]
    · next heq =>
      push Not at heq
      obtain ⟨h1, h2⟩ := ih (by omega) h
      refine ⟨h1, ?_⟩
      rw [h2, hdrop, reconcile, if_pos heq,
        show i + 1 - rf.snapIndex = i - rf.snapIndex + 1 by omega,
        List.take_add_one, hget]
      simp

/-! ## Requests -/

/-- **Asking for a vote** copies the term and the end of the log into the request. -/
theorem requestVoteArgs_spec {rf : Raft n Cmd} {args : RequestVoteArgs n}
    (h : rf.requestVoteArgs = some args) :
    ∃ last, rf.get (rf.logLength - 1) = some last ∧
      args = ⟨rf.currentTerm, rf.me, rf.logLength - 1, last.term⟩ := by
  obtain ⟨last, hl, h⟩ := Option.bind_eq_some_iff.mp h
  exact ⟨last, hl, (Option.some_inj.mp h).symm⟩

/-- **A replicator's request** is built by a leader from its log as it is. -/
theorem singleAppend_append {rf : Raft n Cmd} {i : Fin n} {args : AppendEntriesArgs n Cmd}
    (h : rf.singleAppend i = some (some (.append args))) :
    rf.state = .leader ∧ args.term = rf.currentTerm ∧ args.leaderId = rf.me ∧
    (∃ prev, rf.get args.prevLogIndex = some prev ∧ args.prevLogTerm = prev.term) ∧
    args.entries = rf.log.drop (args.prevLogIndex + 1 - rf.snapIndex) ∧
    args.leaderCommit = rf.commitIndex := by
  rw [singleAppend] at h
  split at h
  · simp at h
  next hlead =>
  obtain ⟨nextIndex, -, h⟩ := Option.bind_eq_some_iff.mp h
  dsimp only at h
  split at h
  · obtain ⟨t, -, h⟩ := Option.bind_eq_some_iff.mp h
    simp at h
  · obtain ⟨prev, hprev, h⟩ := Option.bind_eq_some_iff.mp h
    obtain ⟨es, hes, h⟩ := Option.bind_eq_some_iff.mp h
    obtain ⟨-, -, rfl⟩ := entriesFrom_eq_some.mp hes
    simp only [Option.pure_def, Option.some_inj, Outgoing.append.injEq] at h
    subst h
    exact ⟨not_not.mp hlead, rfl, rfl, ⟨prev, hprev, rfl⟩, rfl, rfl⟩

/-- **A replicator's snapshot** is the leader's. -/
theorem singleAppend_install {rf : Raft n Cmd} {i : Fin n} {args : InstallSnapshotArgs n}
    (h : rf.singleAppend i = some (some (.install args))) :
    rf.state = .leader ∧ ∃ snapTerm, rf.getSnap = some snapTerm ∧
      args = ⟨rf.currentTerm, rf.me, rf.snapIndex, snapTerm, rf.snapshot⟩ := by
  rw [singleAppend] at h
  split at h
  · simp at h
  next hlead =>
  obtain ⟨nextIndex, -, h⟩ := Option.bind_eq_some_iff.mp h
  dsimp only at h
  split at h
  · obtain ⟨t, ht, h⟩ := Option.bind_eq_some_iff.mp h
    simp only [Option.pure_def, Option.some_inj, Outgoing.install.injEq] at h
    exact ⟨not_not.mp hlead, t, ht, h.symm⟩
  · obtain ⟨prev, -, h⟩ := Option.bind_eq_some_iff.mp h
    obtain ⟨es, -, h⟩ := Option.bind_eq_some_iff.mp h
    simp at h

/-- A request starts where `nextIndex` points to, or is a snapshot that reaches there. -/
theorem singleAppend_next {rf : Raft n Cmd} {i : Fin n} {out : Outgoing n Cmd}
    (h : rf.singleAppend i = some (some out)) : ∃ next, rf.nextIndex = some next ∧
      match out with
      | .append args => (args.prevLogIndex : Int) = next i - 1
      | .install args => next i - 1 < args.lastIncludedIndex := by
  rw [singleAppend] at h
  split at h
  · simp at h
  obtain ⟨next, hnext, h⟩ := Option.bind_eq_some_iff.mp h
  refine ⟨next, hnext, ?_⟩
  dsimp only at h
  split at h
  · next hlt =>
    obtain ⟨t, -, h⟩ := Option.bind_eq_some_iff.mp h
    obtain rfl := Option.some_inj.mp (Option.some_inj.mp h)
    exact hlt
  · next hge =>
    obtain ⟨prev, -, h⟩ := Option.bind_eq_some_iff.mp h
    obtain ⟨es, -, h⟩ := Option.bind_eq_some_iff.mp h
    obtain rfl := Option.some_inj.mp (Option.some_inj.mp h)
    exact Int.toNat_of_nonneg (by omega)

theorem setNext_spec {rf rf' : Raft n Cmd} {i : Fin n} {v : Int} (h : rf.setNext i v = some rf') :
    ∃ next, rf.nextIndex = some next ∧
      rf' = { rf with nextIndex := some (Function.update next i v) } := by
  obtain ⟨next, hnext, h⟩ := Option.bind_eq_some_iff.mp h
  exact ⟨next, hnext, (Option.some_inj.mp h).symm⟩

theorem setMatch_spec {rf rf' : Raft n Cmd} {i : Fin n} {v : Int} (h : rf.setMatch i v = some rf') :
    ∃ m, rf.matchIndex = some m ∧ rf' = { rf with matchIndex := some (Function.update m i v) } := by
  obtain ⟨m, hm, h⟩ := Option.bind_eq_some_iff.mp h
  exact ⟨m, hm, (Option.some_inj.mp h).symm⟩

/-- `lastIndexOfTerm` finds an index of the log beyond the boundary with that term, or nothing. -/
theorem lastIndexFrom_spec {rf : Raft n Cmd} {term t : Int} {N : Nat}
    (h : rf.lastIndexFrom term N = some t) :
    t = -1 ∨ ∃ j e, rf.snapIndex < j ∧ rf.get j = some e ∧ e.term = term ∧ t = j := by
  induction N with
  | zero => exact Or.inl (Option.some_inj.mp h).symm
  | succ N ih =>
    rw [lastIndexFrom] at h
    split at h
    swap
    · exact Or.inl (Option.some_inj.mp h).symm
    next hN =>
    obtain ⟨e, he, h⟩ := Option.bind_eq_some_iff.mp h
    split at h
    · next hterm => exact Or.inr ⟨N + 1, e, hN, he, hterm, (Option.some_inj.mp h).symm⟩
    · exact ih h

/-- Where a refusal takes `nextIndex[i]`: to the end of the shorter log, right behind an entry of
the leader's own log, or to the index the reply names. -/
def BackTo (rf : Raft n Cmd) (reply : AppendEntriesReply) (v : Int) : Prop :=
  reply.xTerm = -1 ∧ v = min reply.xLen rf.logLength ∨
  (∃ j e, rf.snapIndex < j ∧ rf.get j = some e ∧ v = j + 1) ∨
  reply.xTerm ≠ -1 ∧ v = reply.xIndex

theorem stepBack_spec {rf rf' : Raft n Cmd} {i : Fin n} {reply : AppendEntriesReply}
    (h : rf.stepBack i reply.xTerm reply.xIndex reply.xLen = some rf') :
    ∃ next v, rf.nextIndex = some next ∧ rf.BackTo reply v ∧
      rf' = { rf with nextIndex := some (Function.update next i v) } := by
  rw [stepBack] at h
  split at h
  · next hx =>
    obtain ⟨next, hnext, rfl⟩ := setNext_spec h
    exact ⟨next, _, hnext, Or.inl ⟨hx, rfl⟩, rfl⟩
  next hx =>
  obtain ⟨t, ht, h⟩ := Option.bind_eq_some_iff.mp h
  split at h
  · next hne =>
    obtain ⟨next, hnext, rfl⟩ := setNext_spec h
    obtain ⟨j, e, hj, he, -, rfl⟩ := (lastIndexFrom_spec ht).resolve_left hne
    exact ⟨next, _, hnext, Or.inr (Or.inl ⟨j, e, hj, he, rfl⟩), rfl⟩
  · obtain ⟨next, hnext, rfl⟩ := setNext_spec h
    exact ⟨next, _, hnext, Or.inr (Or.inr ⟨hx, rfl⟩), rfl⟩

/-! ## Batches -/

/-- **The batch of `guardKick`**: from `i` on, the entries beyond the snapshot, one message each
with the index it was read at. -/
theorem applies_spec {rf : Raft n Cmd} {i k : Nat} {msgs : List (ApplyMsg Cmd)}
    (h : rf.applies i k = some msgs) :
    msgs.map ApplyMsg.index = List.range' (max i (rf.snapIndex + 1))
      (i + k - max i (rf.snapIndex + 1)) ∧
    ∀ m ∈ msgs, ∃ j e, rf.snapIndex < j ∧ i ≤ j ∧ j < i + k ∧ rf.get j = some e ∧
      m = .command j e.command e.term := by
  induction k generalizing i msgs with
  | zero =>
    rw [applies, Option.some_inj] at h
    subst h
    refine ⟨?_, by simp⟩
    rw [Nat.sub_eq_zero_of_le (by omega)]
    rfl
  | succ k ih =>
    rw [applies] at h
    split at h
    · next hle =>
      obtain ⟨h1, h2⟩ := ih h
      refine ⟨?_, fun m hm ↦ ?_⟩
      · rw [h1]
        congr 1 <;> omega
      · obtain ⟨j, e, hj, hij, hjk, hget, rfl⟩ := h2 m hm
        exact ⟨j, e, hj, by omega, by omega, hget, rfl⟩
    · next hlt =>
      obtain ⟨e, he, h⟩ := Option.bind_eq_some_iff.mp h
      obtain ⟨rest, hr, h⟩ := Option.bind_eq_some_iff.mp h
      obtain rfl := (Option.some_inj.mp h).symm
      obtain ⟨h1, h2⟩ := ih hr
      constructor
      · have hk : i + (k + 1) - max i (rf.snapIndex + 1) = k + 1 := by omega
        have hi : max i (rf.snapIndex + 1) = i := by omega
        rw [hk, hi, List.range'_succ, List.map_cons, h1]
        congr 2 <;> omega
      · intro m hm
        rcases List.mem_cons.mp hm with rfl | hm
        · exact ⟨i, e, by omega, le_rfl, by omega, he, rfl⟩
        · obtain ⟨j, e', hj, hij, hjk, hget, rfl⟩ := h2 m hm
          exact ⟨j, e', hj, by omega, by omega, hget, rfl⟩

/-- **`guardKick`** takes everything between `lastApplied` and the commit index that the snapshot
does not cover. -/
theorem guardKick_spec {rf rf' : Raft n Cmd} {batch : List (ApplyMsg Cmd)}
    (h : rf.guardKick = some (rf', batch)) :
    rf' = { rf with lastApplied := max rf.lastApplied rf.commitIndex } ∧
    batch.map ApplyMsg.index = List.range' (max rf.lastApplied rf.snapIndex + 1)
      (rf.commitIndex - max rf.lastApplied rf.snapIndex) ∧
    ∀ m ∈ batch, ∃ j e, rf.snapIndex < j ∧ j ≤ rf.commitIndex ∧ rf.get j = some e ∧
      m = .command j e.command e.term := by
  rw [guardKick] at h
  split at h
  · next hlt =>
    rw [Option.some_inj, Prod.mk.injEq] at h
    obtain ⟨rfl, rfl⟩ := h
    refine ⟨?_, ?_, by simp⟩
    · rw [max_eq_left (by omega)]
    · rw [Nat.sub_eq_zero_of_le (by omega)]
      rfl
  · next hle =>
    obtain ⟨msgs, hm, h⟩ := Option.bind_eq_some_iff.mp h
    simp only [Option.pure_def, Option.some_inj, Prod.mk.injEq] at h
    obtain ⟨rfl, rfl⟩ := h
    obtain ⟨h1, h2⟩ := applies_spec hm
    refine ⟨?_, ?_, fun m hm ↦ ?_⟩
    · rw [max_eq_right (by omega)]
    · rw [h1]
      congr 1 <;> omega
    · obtain ⟨j, e, hj, -, hjk, hget, rfl⟩ := h2 m hm
      exact ⟨j, e, hj, by omega, hget, rfl⟩

variable [Labgob (Saved n Cmd)]

/-! ## Seeing a term

`seeTerm` and `heedLeader` move a server to the term of a message, if that is newer, and touch
nothing but term, state, vote and disk. -/

section SeeTerm

variable (rf : Raft n Cmd) (T : Int)

@[simp] theorem seeTerm_me : (rf.seeTerm T).me = rf.me := by rw [seeTerm]; split <;> rfl

@[simp] theorem seeTerm_log : (rf.seeTerm T).log = rf.log := by rw [seeTerm]; split <;> rfl

@[simp] theorem seeTerm_snapIndex : (rf.seeTerm T).snapIndex = rf.snapIndex := by
  rw [seeTerm]; split <;> rfl

@[simp] theorem seeTerm_snapshot : (rf.seeTerm T).snapshot = rf.snapshot := by
  rw [seeTerm]; split <;> rfl

@[simp] theorem seeTerm_commitIndex : (rf.seeTerm T).commitIndex = rf.commitIndex := by
  rw [seeTerm]; split <;> rfl

@[simp] theorem seeTerm_lastApplied : (rf.seeTerm T).lastApplied = rf.lastApplied := by
  rw [seeTerm]; split <;> rfl

@[simp] theorem seeTerm_matchIndex : (rf.seeTerm T).matchIndex = rf.matchIndex := by
  rw [seeTerm]; split <;> rfl

@[simp] theorem seeTerm_nextIndex : (rf.seeTerm T).nextIndex = rf.nextIndex := by
  rw [seeTerm]; split <;> rfl

@[simp] theorem seeTerm_currentTerm : (rf.seeTerm T).currentTerm = max rf.currentTerm T := by
  rw [seeTerm]
  split
  · next h => exact (max_eq_right (le_of_lt h)).symm
  · next h => exact (max_eq_left (not_lt.mp h)).symm

/-- A server that sees no newer term is left as it is. -/
theorem seeTerm_of_le {rf : Raft n Cmd} {T : Int} (h : T ≤ rf.currentTerm) :
    rf.seeTerm T = rf := by
  rw [seeTerm, if_neg (by omega)]

theorem seeTerm_of_lt {rf : Raft n Cmd} {T : Int} (h : rf.currentTerm < T) :
    rf.seeTerm T = rf.newGen T := by
  rw [seeTerm, if_pos h]

/-- `heedLeader` is `seeTerm`, except that a candidate of that term becomes a follower. -/
theorem heedLeader_eq : rf.heedLeader T = { rf.seeTerm T with
    state := if T = rf.currentTerm ∧ rf.state = .candidate then .follower
      else (rf.seeTerm T).state } := by
  rw [heedLeader]
  split
  · next h => rw [seeTerm_of_lt h, if_neg (by omega)]
  · next h =>
    rw [seeTerm_of_le (not_lt.mp h)]
    split
    · next h' => rw [if_pos h'.symm]; rfl
    · next h' => rw [if_neg (fun hc ↦ h' hc.symm)]

@[simp] theorem heedLeader_me : (rf.heedLeader T).me = rf.me := by rw [heedLeader_eq]; simp

@[simp] theorem heedLeader_log : (rf.heedLeader T).log = rf.log := by rw [heedLeader_eq]; simp

@[simp] theorem heedLeader_snapIndex : (rf.heedLeader T).snapIndex = rf.snapIndex := by
  rw [heedLeader_eq]; simp

@[simp] theorem heedLeader_snapshot : (rf.heedLeader T).snapshot = rf.snapshot := by
  rw [heedLeader_eq]; simp

@[simp] theorem heedLeader_commitIndex : (rf.heedLeader T).commitIndex = rf.commitIndex := by
  rw [heedLeader_eq]; simp

@[simp] theorem heedLeader_lastApplied : (rf.heedLeader T).lastApplied = rf.lastApplied := by
  rw [heedLeader_eq]; simp

@[simp] theorem heedLeader_matchIndex : (rf.heedLeader T).matchIndex = rf.matchIndex := by
  rw [heedLeader_eq]; simp

@[simp] theorem heedLeader_nextIndex : (rf.heedLeader T).nextIndex = rf.nextIndex := by
  rw [heedLeader_eq]; simp

@[simp] theorem heedLeader_currentTerm : (rf.heedLeader T).currentTerm = max rf.currentTerm T := by
  rw [heedLeader_eq]; simp

@[simp] theorem heedLeader_votedFor : (rf.heedLeader T).votedFor = (rf.seeTerm T).votedFor := by
  rw [heedLeader_eq]

@[simp] theorem heedLeader_logLength : (rf.heedLeader T).logLength = rf.logLength := by
  simp [logLength]

@[simp] theorem heedLeader_get (i : Nat) : (rf.heedLeader T).get i = rf.get i := by
  simp [get]

@[simp] theorem seeTerm_logLength : (rf.seeTerm T).logLength = rf.logLength := by
  simp [logLength]

@[simp] theorem seeTerm_get (i : Nat) : (rf.seeTerm T).get i = rf.get i := by
  simp [get]

end SeeTerm

/-! ## The handlers -/

/-- **`reconcileEntries`** rewrites the log from an index on by `reconcile`, saves, and leaves a
token. -/
theorem reconcileEntries_spec {rf rf' : Raft n Cmd} {i j : Nat} {es : List (Entry Cmd)}
    (hi : rf.snapIndex ≤ i) (h : rf.reconcileEntries i j es = some rf') :
    rf' = persist { rf with
      log := rf.log.take (i - rf.snapIndex) ++
        reconcile (rf.log.drop (i - rf.snapIndex)) (es.drop j)
      wakeCh := true } := by
  rw [reconcileEntries] at h
  split at h
  · exact absurd h (by simp)
  · obtain ⟨⟨rf₁, rest⟩, h1, h2⟩ := Option.bind_eq_some_iff.mp h
    obtain ⟨hrf, hlog⟩ := reconcileLoop_spec hi h1
    simp only [Option.pure_def, Option.some_inj] at h2
    rw [← h2, batchAppend, bEffortKick, hlog, hrf]

/-- **`RequestVote`** grants the vote of a server whose term is the candidate's, that has not
voted for somebody else and whose log is not ahead; otherwise it only sees the term. -/
theorem requestVote_spec {rf rf' : Raft n Cmd} {args : RequestVoteArgs n} {reply : RequestVoteReply}
    (h : rf.requestVote args = some (rf', reply)) :
    reply.term = rf'.currentTerm ∧
    (reply.voteGranted = false ∧ rf' = rf.seeTerm args.term ∨
      reply.voteGranted = true ∧ rf.currentTerm ≤ args.term ∧
      ((rf.seeTerm args.term).votedFor = none ∨
        (rf.seeTerm args.term).votedFor = some args.candidateId) ∧
      (∃ last, rf.get (rf.logLength - 1) = some last ∧ (args.lastLogTerm > last.term ∨
        args.lastLogTerm = last.term ∧ args.lastLogIndex ≥ rf.logLength - 1)) ∧
      rf' = persist { rf.seeTerm args.term with votedFor := some args.candidateId }) := by
  rw [requestVote] at h
  split at h
  · rw [Option.pure_def, Option.some_inj, Prod.mk.injEq] at h
    obtain ⟨rfl, rfl⟩ := h
    exact ⟨rfl, Or.inl ⟨rfl, rfl⟩⟩
  · next hlt =>
    obtain ⟨⟨rf₁, granted⟩, h1, h2⟩ := Option.bind_eq_some_iff.mp h
    simp only [Option.pure_def, Option.some_inj, Prod.mk.injEq] at h2
    obtain ⟨rfl, rfl⟩ := h2
    refine ⟨rfl, ?_⟩
    obtain ⟨last, hlast, h1⟩ := Option.bind_eq_some_iff.mp h1
    dsimp only at h1
    split at h1
    · next hg =>
      simp only [Option.pure_def, Option.some_inj, Prod.mk.injEq] at h1
      obtain ⟨rfl, rfl⟩ := h1
      refine Or.inr ⟨rfl, ?_, hg.1, ⟨last, ?_, ?_⟩, rfl⟩
      · simp only [seeTerm_currentTerm] at hlt
        omega
      · simpa using hlast
      · simpa using hg.2
    · simp only [Option.pure_def, Option.some_inj, Prod.mk.injEq] at h1
      obtain ⟨rfl, rfl⟩ := h1
      exact Or.inl ⟨rfl, rfl⟩

/-- The three ways in which a server that has heeded the leader's term refuses its entries: the term
is old, the log is too short, or the entry at `prevLogIndex` has another term. -/
def Refuses (rf : Raft n Cmd) (args : AppendEntriesArgs n Cmd) (reply : AppendEntriesReply) :
    Prop :=
  (args.term < rf.currentTerm ∧ reply = { term := rf.currentTerm, success := false }) ∨
  (rf.logLength ≤ args.prevLogIndex ∧ reply =
    { term := rf.currentTerm, success := false, xTerm := -1, xIndex := -1, xLen := rf.logLength }) ∨
  ∃ prev x, rf.get args.prevLogIndex = some prev ∧ prev.term ≠ args.prevLogTerm ∧
    rf.firstIndexFrom prev.term args.prevLogIndex = some x ∧ reply =
      { term := rf.currentTerm, success := false, xTerm := prev.term, xIndex := x, xLen := -1 }

/-- The log an `AppendEntries` leaves behind: the request's entries, from `prevLogIndex` or, if
that is later, from the end of the snapshot on, reconciled with what was there. -/
def mergedLog (rf : Raft n Cmd) (args : AppendEntriesArgs n Cmd) : List (Entry Cmd) :=
  rf.log.take (max args.prevLogIndex rf.snapIndex + 1 - rf.snapIndex) ++
    reconcile (rf.log.drop (max args.prevLogIndex rf.snapIndex + 1 - rf.snapIndex))
      (args.entries.drop (rf.snapIndex - args.prevLogIndex))

/-- **`AppendEntries`** only heeds the leader's term, and refuses; or it answers with success: then
the term is the leader's, the entry at `prevLogIndex` is in the snapshot or has the right term, the
log is reconciled, and the commit index follows. -/
theorem appendEntries_spec {rf rf' : Raft n Cmd} {args : AppendEntriesArgs n Cmd}
    {reply : AppendEntriesReply} (h : rf.appendEntries args = some (rf', reply)) :
    (rf' = rf.heedLeader args.term ∧ rf'.Refuses args reply) ∨
    (reply.success = true ∧ reply.term = args.term ∧ rf.currentTerm ≤ args.term ∧
      (args.prevLogIndex ≤ rf.snapIndex ∨
        ∃ prev, rf.get args.prevLogIndex = some prev ∧ prev.term = args.prevLogTerm) ∧
      ∃ w rf₁, (rf₁ = rf.heedLeader args.term ∧ rf.mergedLog args = rf.log ∨
          rf₁ = persist { rf.heedLeader args.term with log := rf.mergedLog args, wakeCh := true }) ∧
        rf' = { rf₁ with
          commitIndex := if args.leaderCommit > rf.commitIndex then
            min args.leaderCommit (rf₁.logLength - 1) else rf.commitIndex
          wakeCh := w }) := by
  rw [appendEntries] at h
  dsimp only at h
  split at h
  · next hlt =>
    rw [Option.some_inj, Prod.mk.injEq] at h
    obtain ⟨rfl, rfl⟩ := h
    exact Or.inl ⟨rfl, Or.inl ⟨hlt, rfl⟩⟩
  next hterm =>
  have hle : rf.currentTerm ≤ args.term := by
    simp only [heedLeader_currentTerm] at hterm
    omega
  have hcur : (rf.heedLeader args.term).currentTerm = args.term := by
    rw [heedLeader_currentTerm]
    omega
  split at h
  · next hprev =>
    simp only [heedLeader_snapIndex] at hprev
    have hmax : max args.prevLogIndex rf.snapIndex = rf.snapIndex := by omega
    split at h
    · next hlen =>
      rw [Option.some_inj, Prod.mk.injEq] at h
      obtain ⟨rfl, rfl⟩ := h
      obtain ⟨w, hw⟩ := tryUpdateCommit_spec (rf.heedLeader args.term) args.leaderCommit
      refine Or.inr ⟨rfl, hcur, hle, Or.inl hprev, w, _, Or.inl ⟨rfl, ?_⟩, ?_⟩
      · rw [heedLeader_snapIndex] at hlen
        rw [mergedLog, List.drop_eq_nil_of_le hlen, reconcile_nil,
          List.take_append_drop]
      · rw [hw]; simp
    · obtain ⟨rf₁, h1, h2⟩ := Option.bind_eq_some_iff.mp h
      simp only [Option.pure_def, Option.some_inj, Prod.mk.injEq] at h2
      obtain ⟨rfl, rfl⟩ := h2
      have hrf := reconcileEntries_spec (by simp) h1
      obtain ⟨w, hw⟩ := tryUpdateCommit_spec rf₁ args.leaderCommit
      refine Or.inr ⟨rfl, hcur, hle, Or.inl hprev, w, rf₁, Or.inr ?_, ?_⟩
      · rw [hrf, mergedLog, hmax]; simp
      · rw [hw, hrf]; simp [persist]
  next hprev =>
  simp only [heedLeader_snapIndex] at hprev
  split at h
  · next hlen =>
    rw [Option.some_inj, Prod.mk.injEq] at h
    obtain ⟨rfl, rfl⟩ := h
    exact Or.inl ⟨rfl, Or.inr (Or.inl ⟨hlen, rfl⟩)⟩
  obtain ⟨prev, hget, h⟩ := Option.bind_eq_some_iff.mp h
  split at h
  · next hne =>
    obtain ⟨x, hx, h2⟩ := Option.bind_eq_some_iff.mp h
    simp only [Option.pure_def, Option.some_inj, Prod.mk.injEq] at h2
    obtain ⟨rfl, rfl⟩ := h2
    exact Or.inl ⟨rfl, Or.inr (Or.inr ⟨prev, x, hget, hne, hx, rfl⟩)⟩
  · next hpt =>
    push Not at hpt
    obtain ⟨rf₁, h1, h2⟩ := Option.bind_eq_some_iff.mp h
    simp only [Option.pure_def, Option.some_inj, Prod.mk.injEq] at h2
    obtain ⟨rfl, rfl⟩ := h2
    have hrf := reconcileEntries_spec (by simp; omega) h1
    obtain ⟨w, hw⟩ := tryUpdateCommit_spec rf₁ args.leaderCommit
    refine Or.inr ⟨rfl, ?_, hle, Or.inr ⟨prev, by simpa using hget, hpt⟩, w, rf₁, Or.inr ?_, ?_⟩
    · rw [hrf]; exact hcur
    · have hmax : max args.prevLogIndex rf.snapIndex = args.prevLogIndex := by omega
      have hsub : rf.snapIndex - args.prevLogIndex = 0 := by omega
      rw [hrf, mergedLog, hmax, hsub]; simp
    · rw [hw, hrf]; simp [persist]

/-- The server right after the part of `InstallSnapshot` that takes the snapshot over. -/
def restored (rf : Raft n Cmd) (args : InstallSnapshotArgs n) : Raft n Cmd :=
  persist { rf.seeTerm args.term with
    log := ⟨args.lastIncludedTerm, none⟩ :: rf.log.drop (args.lastIncludedIndex + 1 - rf.snapIndex)
    snapIndex := args.lastIncludedIndex
    snapshot := args.data }

theorem takeSnapshot_spec {rf rf' : Raft n Cmd} {args : InstallSnapshotArgs n}
    (h : (rf.seeTerm args.term).takeSnapshot args = some rf') : rf' = rf.restored args := by
  obtain ⟨newLog, hlog, h⟩ := Option.bind_eq_some_iff.mp h
  have hnew : newLog = ⟨0, none⟩ :: rf.log.drop (args.lastIncludedIndex + 1 - rf.snapIndex) := by
    rw [trimLog] at hlog
    split at hlog
    · obtain ⟨kept, hk, h2⟩ := Option.bind_eq_some_iff.mp hlog
      obtain ⟨-, -, rfl⟩ := entriesFrom_eq_some.mp hk
      simpa using h2.symm
    · next hlen =>
      rw [seeTerm_logLength, logLength] at hlen
      rw [List.drop_eq_nil_of_le (by omega)]
      exact (Option.some_inj.mp hlog).symm
  subst hnew
  simpa [setSnap, restored] using h.symm

/-- **`InstallSnapshot`** ignores an old leader, only sees the term where it has the snapshot
already, and otherwise takes the snapshot over; then, if the service is behind, it skips to the
end of the snapshot and leaves a message for it. -/
theorem installSnapshot_spec {rf rf' : Raft n Cmd} {args : InstallSnapshotArgs n} {reply : Int}
    {msg : Option (ApplyMsg Cmd)} (h : rf.installSnapshot args = some (rf', reply, msg)) :
    reply = rf'.currentTerm ∧
    (msg = none ∧ rf' = rf.seeTerm args.term ∧
        (args.term < rf.currentTerm ∨ args.lastIncludedIndex ≤ rf.snapIndex) ∨
      rf.currentTerm ≤ args.term ∧ rf.snapIndex < args.lastIncludedIndex ∧
      (args.lastIncludedIndex ≤ rf.lastApplied ∧ msg = none ∧ rf' = rf.restored args ∨
        rf.lastApplied < args.lastIncludedIndex ∧
        msg = some (.snapshot args.lastIncludedIndex args.lastIncludedTerm args.data) ∧
        rf' = { rf.restored args with
          lastApplied := args.lastIncludedIndex, commitIndex := args.lastIncludedIndex })) := by
  rw [installSnapshot] at h
  split at h
  · next hlt =>
    simp only [Option.some_inj, Prod.mk.injEq] at h
    obtain ⟨rfl, rfl, rfl⟩ := h
    exact ⟨rfl, Or.inl ⟨rfl, (seeTerm_of_le hlt.le).symm, Or.inl hlt⟩⟩
  next hge =>
  dsimp only at h
  split at h
  · next hle =>
    simp only [Option.some_inj, Prod.mk.injEq] at h
    obtain ⟨rfl, rfl, rfl⟩ := h
    exact ⟨rfl, Or.inl ⟨rfl, rfl, Or.inr (by simpa using hle)⟩⟩
  next hsnap =>
  rw [seeTerm_snapIndex, not_le] at hsnap
  obtain ⟨rf₁, h1, h⟩ := Option.bind_eq_some_iff.mp h
  obtain rfl := takeSnapshot_spec h1
  have happ : (rf.restored args).lastApplied = rf.lastApplied := by simp [restored, persist]
  have hsn : (rf.restored args).snapIndex = args.lastIncludedIndex := rfl
  rw [happ, hsn] at h
  split at h
  · next hlt =>
    simp only [Option.pure_def, Option.some_inj, Prod.mk.injEq] at h
    obtain ⟨rfl, rfl, rfl⟩ := h
    exact ⟨rfl, Or.inr ⟨by omega, hsnap, Or.inr ⟨hlt, rfl, rfl⟩⟩⟩
  · next hle =>
    simp only [Option.pure_def, Option.some_inj, Prod.mk.injEq] at h
    obtain ⟨rfl, rfl, rfl⟩ := h
    exact ⟨rfl, Or.inr ⟨by omega, hsnap, Or.inl ⟨by omega, rfl, rfl⟩⟩⟩

/-! ## Answers -/

/-- A vote is counted by a candidate, still in the term it was asked for; the reply does not bring a
newer one. -/
theorem countsVote_spec {rf : Raft n Cmd} {args : RequestVoteArgs n} {reply : RequestVoteReply}
    (h : rf.countsVote args reply) : reply.voteGranted = true ∧ rf.state = .candidate ∧
      rf.currentTerm = args.term ∧ rf.seeTerm reply.term = rf := by
  obtain ⟨hg, hs, ht⟩ := h
  have hle : reply.term ≤ rf.currentTerm := by
    by_contra hlt
    rw [seeTerm_of_lt (not_le.mp hlt)] at hs
    simp [newGen, persist] at hs
  rw [seeTerm_of_le hle] at hs ht
  exact ⟨hg, hs, ht, seeTerm_of_le hle⟩

/-- **The answer to an `AppendEntries`** makes its caller see the term.  On a leader still in the
term of the request, a refusal moves `nextIndex`, and a success records the match and may commit. -/
theorem singleAppendReply_spec {rf rf' : Raft n Cmd} {i : Fin n} {args : AppendEntriesArgs n Cmd}
    {reply : AppendEntriesReply} (h : rf.singleAppendReply i args reply = some rf') :
    (rf' = rf.seeTerm reply.term) ∨
    (reply.success = false ∧ rf.currentTerm = args.term ∧ rf.state = .leader ∧
      reply.term ≤ rf.currentTerm ∧ ∃ next v, rf.nextIndex = some next ∧ rf.BackTo reply v ∧
        rf' = { rf with nextIndex := some (Function.update next i v) }) ∨
    (reply.success = true ∧ rf.currentTerm = args.term ∧ rf.state = .leader ∧
      ∃ m next rf₁, rf.matchIndex = some m ∧ rf.nextIndex = some next ∧
        rf₁ = { rf with
          nextIndex :=
            some (Function.update next i (args.prevLogIndex + args.entries.length + 1))
          matchIndex := some (Function.update m i (args.prevLogIndex + args.entries.length)) } ∧
        (rf' = rf₁ ∨ ∃ M e c, rf.commitIndex < M ∧ rf.snapIndex < M ∧
          rf₁.countMatch M = some c ∧ n / 2 < c ∧ rf.get M = some e ∧ e.term = rf.currentTerm ∧
          rf' = bEffortKick { rf₁ with commitIndex := M })) := by
  rw [singleAppendReply] at h
  split at h
  · next hlt => exact Or.inl ((Option.some_inj.mp h).symm.trans (seeTerm_of_lt hlt).symm)
  next hge =>
  rw [not_lt] at hge
  split at h
  · exact Or.inl ((Option.some_inj.mp h).symm.trans (seeTerm_of_le hge).symm)
  next hcur =>
  push Not at hcur
  split at h
  · next hno =>
    exact Or.inr (Or.inl ⟨hno, hcur.1, hcur.2, hge, stepBack_spec h⟩)
  next hok =>
  obtain ⟨rf₁, h1, h⟩ := Option.bind_eq_some_iff.mp h
  obtain ⟨rf₂, h2, h⟩ := Option.bind_eq_some_iff.mp h
  obtain ⟨m, hm, rfl⟩ := setMatch_spec h1
  obtain ⟨next, hnext, rfl⟩ := setNext_spec h2
  refine Or.inr (Or.inr ⟨by simpa using hok, hcur.1, hcur.2, m, next, _, hm, hnext, rfl, ?_⟩)
  rcases updateCommitFrom_spec h with rfl | ⟨M, e, c, h1, h2, h3, h4, h5, h6, h7⟩
  · exact Or.inl rfl
  · exact Or.inr ⟨M, e, c, h1, h2, h3, h4, h5, h6, h7⟩

/-- **The answer to an `InstallSnapshot`** makes its caller see the term or records the match,
whatever the caller is by now. -/
theorem helpInstallReply_spec {rf rf' : Raft n Cmd} {i : Fin n} {args : InstallSnapshotArgs n}
    {reply : Int} (h : rf.helpInstallReply i args reply = some rf') :
    rf' = rf.seeTerm reply ∨ reply ≤ rf.currentTerm ∧
      ∃ m next, rf.matchIndex = some m ∧ rf.nextIndex = some next ∧ rf' = { rf with
        nextIndex := some (Function.update next i (args.lastIncludedIndex + 1))
        matchIndex := some (Function.update m i args.lastIncludedIndex) } := by
  rw [helpInstallReply] at h
  split at h
  · next hlt => exact Or.inl ((Option.some_inj.mp h).symm.trans (seeTerm_of_lt hlt).symm)
  · next hge =>
    obtain ⟨rf₁, h1, h⟩ := Option.bind_eq_some_iff.mp h
    obtain ⟨m, hm, rfl⟩ := setMatch_spec h1
    obtain ⟨next, hnext, rfl⟩ := setNext_spec h
    exact Or.inr ⟨not_lt.mp hge, m, next, hm, hnext, rfl⟩

/-! ## The service's side -/

/-- **`Snapshot`** does nothing, or cuts the log at an index it holds and saves. -/
theorem snapshotAt_spec {rf rf' : Raft n Cmd} {index : Nat} {data : Bytes}
    (h : rf.snapshotAt index data = some rf') :
    index ≤ rf.snapIndex ∧ rf' = rf ∨
    rf.snapIndex < index ∧ ∃ e, rf.get index = some e ∧ rf' = persist { rf with
      log := ⟨e.term, none⟩ :: rf.log.drop (index - rf.snapIndex + 1)
      snapIndex := index
      snapshot := data } := by
  rw [snapshotAt] at h
  split at h
  · next hle => exact Or.inl ⟨hle, (Option.some_inj.mp h).symm⟩
  · next hlt =>
    obtain ⟨e, he, h⟩ := Option.bind_eq_some_iff.mp h
    exact Or.inr ⟨by omega, e, he, (Option.some_inj.mp h).symm⟩

/-- **`Start`** on a leader appends an entry of its term and returns where it is. -/
theorem start_of_leader {rf : Raft n Cmd} (h : rf.state = .leader) (command : Option Cmd) :
    rf.start command = (rf.append ⟨rf.currentTerm, command⟩,
      some (rf.logLength, rf.currentTerm)) := by
  simp [start, h, append, persist, bEffortKick, logLength]

theorem start_of_not_leader {rf : Raft n Cmd} (h : rf.state ≠ .leader) (command : Option Cmd) :
    rf.start command = (rf, none) := by
  rw [start, if_pos h]

end Raft

end DistLabs
