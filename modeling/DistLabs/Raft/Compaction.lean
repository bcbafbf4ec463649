import DistLabs.Raft.Bounds

/-!
# Compaction is invisible to the protocol

`Snapshot(s, data)` drops the entries up to `s` and keeps the term of the last one as the boundary
of the log.  `Compacts s rf rf'` says that `rf'` is `rf` with that done.  The handlers keep the
relation and answer alike (`Compacts.requestVote`, `Compacts.start`, `Compacts.appendEntries`), so
nobody can tell the two servers apart by what they answer.

The hard case is `AppendEntries`, where the compacted server takes the branch for a `prevLogIndex`
that its snapshot covers, while the other one compares terms and reconciles entry by entry.  A
leader whose log agrees with the server's through `s` passes all these comparisons
(`reconcileLoop_skip`), and from `s + 1` on the two loops do the same.
-/

set_option autoImplicit false

namespace DistLabs

variable {n : Nat} {Cmd : Type}

namespace Raft

/-- `rf'` is `rf`, compacted at `s`. -/
structure Compacts (s : Nat) (rf rf' : Raft n Cmd) : Prop where
  /-- The index lies beyond the old snapshot. -/
  lt : rf.snapIndex < s
  /-- It is where the new one ends. -/
  snapIndex : rf'.snapIndex = s
  /-- The log goes on as before behind a boundary with the term of the last entry dropped. -/
  log : ∃ e, rf.get s = some e ∧
    rf'.log = ⟨e.term, none⟩ :: rf.log.drop (s - rf.snapIndex + 1)
  /-- The term. -/
  currentTerm : rf'.currentTerm = rf.currentTerm
  /-- The vote. -/
  votedFor : rf'.votedFor = rf.votedFor
  /-- The role. -/
  state : rf'.state = rf.state
  /-- The commit index. -/
  commitIndex : rf'.commitIndex = rf.commitIndex

variable {s : Nat} {rf rf' : Raft n Cmd}

theorem snapshotAt_compacts [Labgob (Saved n Cmd)] {data : Bytes}
    (h : rf.snapshotAt s data = some rf') (hs : rf.snapIndex < s) : Compacts s rf rf' := by
  rcases snapshotAt_spec h with ⟨hle, -⟩ | ⟨-, e, he, rfl⟩
  · omega
  · exact ⟨hs, rfl, ⟨e, he, rfl⟩, rfl, rfl, rfl, rfl⟩

namespace Compacts

/-! ## Reading the log -/

theorem lt_logLength (h : Compacts s rf rf') : s < rf.logLength := by
  obtain ⟨e, he, -⟩ := h.log
  exact get_lt_logLength he

theorem logLength (h : Compacts s rf rf') : rf'.logLength = rf.logLength := by
  obtain ⟨e, -, hlog⟩ := h.log
  have hlt := h.lt
  have hlen := h.lt_logLength
  rw [Raft.logLength] at hlen
  rw [Raft.logLength, Raft.logLength, h.snapIndex, hlog, List.length_cons, List.length_drop]
  omega

theorem get (h : Compacts s rf rf') {i : Nat} (hi : s < i) : rf'.get i = rf.get i := by
  obtain ⟨e, -, hlog⟩ := h.log
  have hlt := h.lt
  rw [Raft.get, Raft.get, if_neg (by rw [h.snapIndex]; omega), if_neg (by omega), hlog, h.snapIndex,
    show i - s = i - s - 1 + 1 by omega, List.getElem?_cons_succ, List.getElem?_drop]
  congr 1
  omega

/-- The two logs end in the same term. -/
theorem get_last (h : Compacts s rf rf') : ∃ e e', rf.get (rf.logLength - 1) = some e ∧
    rf'.get (rf.logLength - 1) = some e' ∧ e'.term = e.term := by
  obtain ⟨e, he, hlog⟩ := h.log
  have hlen := h.lt_logLength
  rcases Nat.eq_or_lt_of_le (Nat.le_sub_one_of_lt hlen) with heq | hgt
  · -- everything is compacted, and the boundary is what is left
    rw [← heq]
    refine ⟨e, ⟨e.term, none⟩, he, get_eq_some.mpr ⟨h.snapIndex.le, ?_⟩, rfl⟩
    rw [hlog, h.snapIndex, Nat.sub_self, List.getElem?_cons_zero]
  · have hlt := h.lt
    obtain ⟨x, hx⟩ := exists_get rf (i := rf.logLength - 1) (by omega) (by omega)
    exact ⟨x, x, hx, by rw [h.get hgt, hx], rfl⟩

/-- The scan for `XIndex` ends where it did, or at the first index the server still has. -/
theorem firstIndexFrom (h : Compacts s rf rf') (xTerm : Int) {x : Nat} (hlt : s < x)
    (hx : x < rf.logLength) : ∃ y, rf.firstIndexFrom xTerm x = some y ∧
      rf'.firstIndexFrom xTerm x = some (max y (s + 1)) := by
  have hs := h.lt
  induction x with
  | zero => omega
  | succ x ih =>
    obtain ⟨y, hy, -, hle⟩ := exists_firstIndexFrom rf xTerm (hs.trans hlt) hx
    refine ⟨y, hy, ?_⟩
    rcases Nat.eq_or_lt_of_le (Nat.le_of_lt_succ hlt) with rfl | hgt
    · rw [Raft.firstIndexFrom, if_neg (by rw [h.snapIndex]; omega)]
      congr 1
      omega
    obtain ⟨e, he⟩ := exists_get rf (i := x) (by omega) (by omega)
    rw [Raft.firstIndexFrom, if_pos (by omega), he, Option.bind_eq_bind, Option.bind_some] at hy
    rw [Raft.firstIndexFrom, if_pos (by rw [h.snapIndex]; omega), h.get hgt, he,
      Option.bind_eq_bind, Option.bind_some]
    split at hy
    · next heq =>
      obtain ⟨z, hz, hz'⟩ := ih hgt (by omega)
      obtain rfl := Option.some_inj.mp (hy.symm.trans hz)
      rw [if_pos heq, hz']
    · next hne =>
      obtain rfl := Option.some_inj.mp hy
      rw [if_neg hne, Nat.max_eq_left (by omega)]
      rfl

/-! ## Changing the server -/

theorem appendLog (h : Compacts s rf rf') (l : List (Entry Cmd)) :
    Compacts s { rf with log := rf.log ++ l } { rf' with log := rf'.log ++ l } := by
  obtain ⟨e, he, hlog⟩ := h.log
  obtain ⟨hle, hget⟩ := get_eq_some.mp he
  have hlt := (List.getElem?_eq_some_iff.mp hget).1
  refine ⟨h.lt, h.snapIndex, ⟨e, ?_, ?_⟩, h.currentTerm, h.votedFor, h.state, h.commitIndex⟩
  · refine get_eq_some.mpr ⟨hle, ?_⟩
    change (rf.log ++ l)[s - rf.snapIndex]? = some e
    rw [List.getElem?_append_left hlt, hget]
  · change rf'.log ++ l = _ :: (rf.log ++ l).drop (s - rf.snapIndex + 1)
    rw [hlog, List.drop_append_of_le_length hlt, List.cons_append]

theorem takeLog (h : Compacts s rf rf') {i : Nat} (hi : s < i) :
    Compacts s { rf with log := rf.log.take (i - rf.snapIndex) }
      { rf' with log := rf'.log.take (i - rf'.snapIndex) } := by
  obtain ⟨e, he, hlog⟩ := h.log
  obtain ⟨hle, hget⟩ := get_eq_some.mp he
  refine ⟨h.lt, h.snapIndex, ⟨e, ?_, ?_⟩, h.currentTerm, h.votedFor, h.state, h.commitIndex⟩
  · refine get_eq_some.mpr ⟨hle, ?_⟩
    change (rf.log.take (i - rf.snapIndex))[s - rf.snapIndex]? = some e
    rw [List.getElem?_take_of_lt (by omega), hget]
  · change rf'.log.take (i - rf'.snapIndex) =
      _ :: (rf.log.take (i - rf.snapIndex)).drop (s - rf.snapIndex + 1)
    rw [hlog, h.snapIndex, show i - s = i - s - 1 + 1 by omega, List.take_succ_cons,
      List.drop_take]
    congr 2
    omega

theorem tryUpdateCommit (h : Compacts s rf rf') (leaderCommit : Nat) :
    Compacts s (rf.tryUpdateCommit leaderCommit) (rf'.tryUpdateCommit leaderCommit) := by
  obtain ⟨w, hw⟩ := tryUpdateCommit_spec rf leaderCommit
  obtain ⟨w', hw'⟩ := tryUpdateCommit_spec rf' leaderCommit
  rw [hw, hw', h.commitIndex, h.logLength]
  exact ⟨h.lt, h.snapIndex, h.log, h.currentTerm, h.votedFor, h.state, rfl⟩

/-- Beyond the snapshot the two loops do the same. -/
theorem reconcileLoop (h : Compacts s rf rf') {i : Nat} (hi : s < i) (es : List (Entry Cmd)) :
    ∃ rf₁ rf₁' rest, rf.reconcileLoop i es = some (rf₁, rest) ∧
      rf'.reconcileLoop i es = some (rf₁', rest) ∧ Compacts s rf₁ rf₁' := by
  induction es generalizing i with
  | nil => exact ⟨rf, rf', [], rfl, rfl, h⟩
  | cons e es ih =>
    rw [Raft.reconcileLoop, Raft.reconcileLoop, h.logLength, h.get hi]
    split
    swap
    · exact ⟨_, _, _, rfl, rfl, h⟩
    next hlt =>
    have hs := h.lt
    obtain ⟨mine, hmine⟩ := exists_get rf (i := i) (by omega) hlt
    rw [hmine, Option.bind_eq_bind, Option.bind_some, Option.bind_some]
    split
    · exact ⟨_, _, _, rfl, rfl, h.takeLog hi⟩
    · exact ih (by omega)

variable [Labgob (Saved n Cmd)]

theorem newGen (h : Compacts s rf rf') (T : Int) : Compacts s (rf.newGen T) (rf'.newGen T) :=
  ⟨h.lt, h.snapIndex, h.log, rfl, rfl, rfl, h.commitIndex⟩

theorem seeTerm (h : Compacts s rf rf') (T : Int) : Compacts s (rf.seeTerm T) (rf'.seeTerm T) := by
  rw [Raft.seeTerm, Raft.seeTerm, h.currentTerm]
  split
  · exact h.newGen T
  · exact h

theorem heedLeader (h : Compacts s rf rf') (T : Int) :
    Compacts s (rf.heedLeader T) (rf'.heedLeader T) := by
  rw [Raft.heedLeader, Raft.heedLeader, h.currentTerm, h.state]
  split
  · exact h.newGen T
  split
  · exact ⟨h.lt, h.snapIndex, h.log, h.currentTerm, h.votedFor, rfl, h.commitIndex⟩
  · exact h

theorem batchAppend (h : Compacts s rf rf') (l : List (Entry Cmd)) :
    Compacts s (rf.batchAppend l) (rf'.batchAppend l) := by
  have h' := h.appendLog l
  exact ⟨h'.lt, h'.snapIndex, h'.log, h'.currentTerm, h'.votedFor, h'.state, h'.commitIndex⟩

/-! ## The handlers -/

theorem requestVote (h : Compacts s rf rf') (args : RequestVoteArgs n) :
    ∃ rf₁ rf₁' reply, rf.requestVote args = some (rf₁, reply) ∧
      rf'.requestVote args = some (rf₁', reply) ∧ Compacts s rf₁ rf₁' := by
  have h₁ := h.seeTerm args.term
  obtain ⟨e, e', he, he', hterm⟩ := h₁.get_last
  rw [Raft.requestVote, Raft.requestVote, h₁.currentTerm]
  split
  · exact ⟨_, _, _, rfl, rfl, h₁⟩
  rw [tryVotingFor, tryVotingFor, h₁.logLength, he, he', h₁.votedFor]
  simp only [Option.bind_eq_bind, Option.bind_some, hterm]
  split
  · refine ⟨_, _, _, rfl, by rw [← h₁.currentTerm]; rfl, ?_⟩
    exact ⟨h₁.lt, h₁.snapIndex, h₁.log, h₁.currentTerm, rfl, h₁.state, h₁.commitIndex⟩
  · exact ⟨_, _, _, rfl, by rw [← h₁.currentTerm]; rfl, h₁⟩

theorem start (h : Compacts s rf rf') (command : Option Cmd) :
    (rf'.start command).2 = (rf.start command).2 ∧
      Compacts s (rf.start command).1 (rf'.start command).1 := by
  by_cases hs : rf.state = .leader
  · rw [start_of_leader hs, start_of_leader (h.state.trans hs), h.currentTerm, h.logLength]
    exact ⟨rfl, h.batchAppend _⟩
  · rw [start_of_not_leader hs, start_of_not_leader (h.state ▸ hs)]
    exact ⟨rfl, h⟩

end Compacts

/-! ## Requests of a leader -/

/-- `es` is the server's log from index `1` on, together with what it has compacted. -/
structure HasLog (rf : Raft n Cmd) (es : List (Entry Cmd)) : Prop where
  /-- The entries it has. -/
  get : ∀ i, rf.snapIndex < i → rf.get i = es[i - 1]?
  /-- The term of the last one compacted is that of the boundary. -/
  boundary : 0 < rf.snapIndex → ∀ b, rf.get rf.snapIndex = some b →
    ∃ e, es[rf.snapIndex - 1]? = some e ∧ b.term = e.term

/-- The server has the entries of the log `es` through index `s`, as far as it has not compacted
them. -/
def AgreesThrough (rf : Raft n Cmd) (es : List (Entry Cmd)) (s : Nat) : Prop :=
  ∀ i, rf.snapIndex < i → i ≤ s → ∃ e, rf.get i = some e ∧ es[i - 1]? = some e

/-- What an `AppendEntries` says about the indexes through `s` is true of the server. -/
structure Fits (rf : Raft n Cmd) (s : Nat) (args : AppendEntriesArgs n Cmd) : Prop where
  /-- The term at `prevLogIndex`. -/
  prev : rf.snapIndex < args.prevLogIndex → args.prevLogIndex ≤ s →
    ∃ e, rf.get args.prevLogIndex = some e ∧ e.term = args.prevLogTerm
  /-- The entries. -/
  entries : ∀ j e, args.entries[j]? = some e → rf.snapIndex < args.prevLogIndex + 1 + j →
    args.prevLogIndex + 1 + j ≤ s → rf.get (args.prevLogIndex + 1 + j) = some e

/-- **The request of a leader whose log agrees with the server's** fits. -/
theorem fits_of_singleAppend {ld : Raft n Cmd} {es : List (Entry Cmd)} {i : Fin n}
    {args : AppendEntriesArgs n Cmd} (hlog : ld.HasLog es)
    (hsend : ld.singleAppend i = some (some (.append args))) (hag : rf.AgreesThrough es s) :
    rf.Fits s args := by
  obtain ⟨-, -, -, ⟨prev, hprev, hterm⟩, hentries, -⟩ := singleAppend_append hsend
  obtain ⟨hle, -⟩ := get_eq_some.mp hprev
  constructor
  · intro hlt hles
    obtain ⟨e, he, hes⟩ := hag _ hlt hles
    refine ⟨e, he, ?_⟩
    rw [hterm]
    rcases Nat.eq_or_lt_of_le hle with heq | hgt
    · -- the leader's own log begins right behind `prevLogIndex`
      rw [← heq] at hprev hes hlt
      obtain ⟨x, hx, hb⟩ := hlog.boundary (by omega) prev hprev
      rw [hb, Option.some_inj.mp (hes.symm.trans hx)]
    · rw [hlog.get _ hgt, hes, Option.some_inj] at hprev
      rw [hprev]
  · intro j e hj hlt hles
    obtain ⟨x, hx, hes⟩ := hag _ hlt hles
    have hget : ld.get (args.prevLogIndex + 1 + j) = some e := by
      refine get_eq_some.mpr ⟨by omega, ?_⟩
      rw [hentries, List.getElem?_drop] at hj
      rw [← hj]
      congr 1
      omega
    rw [hlog.get _ (by omega), hes] at hget
    rw [hx, hget]

/-- Entries that the server has are passed over. -/
theorem reconcileLoop_skip {i : Nat} {es : List (Entry Cmd)} (hi : i ≤ s + 1)
    (hs : s < rf.logLength) (hes : ∀ j e, es[j]? = some e → i + j ≤ s → rf.get (i + j) = some e) :
    rf.reconcileLoop i es = rf.reconcileLoop (s + 1) (es.drop (s + 1 - i)) := by
  induction es generalizing i with
  | nil => rw [List.drop_nil, reconcileLoop, reconcileLoop]
  | cons e es ih =>
    rcases Nat.eq_or_lt_of_le hi with rfl | hlt
    · rw [Nat.sub_self, List.drop_zero]
    have he := hes 0 e rfl (by omega)
    rw [Nat.add_zero] at he
    rw [reconcileLoop, if_pos (by omega), he, Option.bind_eq_bind, Option.bind_some,
      if_neg (by simp), ih (by omega), show s + 1 - i = s + 1 - (i + 1) + 1 by omega,
      List.drop_succ_cons]
    intro j x hj hle
    rw [show i + 1 + j = i + (j + 1) by omega]
    exact hes (j + 1) x hj (by omega)

/-! ## `AppendEntries` -/

/-- The replies agree, except that `XIndex` may have been raised to the first index that is not
compacted. -/
structure SameReply (s : Nat) (r r' : AppendEntriesReply) : Prop where
  /-- The term. -/
  term : r'.term = r.term
  /-- Success. -/
  success : r'.success = r.success
  /-- The conflicting term. -/
  xTerm : r'.xTerm = r.xTerm
  /-- Where that term begins. -/
  xIndex : r'.xIndex = r.xIndex ∨ r.xIndex ≤ s ∧ r'.xIndex = s + 1
  /-- The length of the log. -/
  xLen : r'.xLen = r.xLen

section Handler

variable [Labgob (Saved n Cmd)]

/-- What `AppendEntries` does to the log where the snapshot covers `prevLogIndex`. -/
def reconcileCovered (rf : Raft n Cmd) (prevLogIndex : Nat) (entries : List (Entry Cmd)) :
    Option (Raft n Cmd) :=
  if rf.snapIndex - prevLogIndex ≥ entries.length then some rf
  else rf.reconcileEntries (rf.snapIndex + 1) (rf.snapIndex - prevLogIndex) entries

/-- The answer to an `AppendEntries` that is taken. -/
def taken (rf : Raft n Cmd) (leaderCommit : Nat) : Raft n Cmd × AppendEntriesReply :=
  (rf.tryUpdateCommit leaderCommit, { term := rf.currentTerm, success := true })

theorem reconcileEntries_currentTerm {rf₁ : Raft n Cmd} {i j : Nat} {es : List (Entry Cmd)}
    (hi : rf.snapIndex ≤ i) (h : rf.reconcileEntries i j es = some rf₁) :
    rf₁.currentTerm = rf.currentTerm := by
  rw [Raft.reconcileEntries] at h
  split at h
  · simp at h
  obtain ⟨⟨rf₂, rest⟩, hloop, h⟩ := Option.bind_eq_some_iff.mp h
  obtain rfl := Option.some_inj.mp h
  change rf₂.currentTerm = rf.currentTerm
  rw [(reconcileLoop_spec hi hloop).1]

theorem appendEntries_of_covered {args : AppendEntriesArgs n Cmd}
    (hterm : ¬ args.term < (rf.heedLeader args.term).currentTerm)
    (hle : args.prevLogIndex ≤ rf.snapIndex) : rf.appendEntries args =
      ((rf.heedLeader args.term).reconcileCovered args.prevLogIndex args.entries).map
        fun rf₁ ↦ rf₁.taken args.leaderCommit := by
  rw [Raft.appendEntries]
  dsimp only
  rw [if_neg hterm, if_pos (by simpa using hle), reconcileCovered]
  split
  · rfl
  · cases h : (rf.heedLeader args.term).reconcileEntries _ _ args.entries with
    | none => rfl
    | some rf₁ =>
      have := reconcileEntries_currentTerm (by omega) h
      simp [taken, this]

theorem appendEntries_of_normal {args : AppendEntriesArgs n Cmd} {e : Entry Cmd}
    (hterm : ¬ args.term < (rf.heedLeader args.term).currentTerm)
    (hlt : rf.snapIndex < args.prevLogIndex) (he : rf.get args.prevLogIndex = some e)
    (hprev : e.term = args.prevLogTerm) : rf.appendEntries args =
      ((rf.heedLeader args.term).reconcileEntries (args.prevLogIndex + 1) 0 args.entries).map
        fun rf₁ ↦ rf₁.taken args.leaderCommit := by
  have hlen := get_lt_logLength he
  rw [Raft.appendEntries]
  dsimp only
  rw [if_neg hterm, if_neg (by simpa using hlt), if_neg (by simpa using hlen), heedLeader_get, he,
    Option.bind_eq_bind, Option.bind_some, if_neg (by simpa using hprev)]
  cases (rf.heedLeader args.term).reconcileEntries _ _ args.entries <;> rfl

namespace Compacts

/-- The server reconciles from index `i` on, and has the entries through `s`; its compacted copy
begins at `s + 1`, if the request goes that far. -/
theorem reconcileEntries (h : Compacts s rf rf') {p i j : Nat} (es : List (Entry Cmd))
    (hi : i ≤ s + 1) (hj : j ≤ es.length) (hp : j + (s + 1 - i) = s - p)
    (hes : ∀ k e, (es.drop j)[k]? = some e → i + k ≤ s → rf.get (i + k) = some e) :
    ∃ rf₁ rf₁', rf.reconcileEntries i j es = some rf₁ ∧
      rf'.reconcileCovered p es = some rf₁' ∧ Compacts s rf₁ rf₁' := by
  obtain ⟨rf₁, rf₁', rest, h1, h2, h3⟩ := h.reconcileLoop (i := s + 1) (by omega) (es.drop (s - p))
  have hleft : rf.reconcileEntries i j es = some (rf₁.batchAppend rest) := by
    rw [Raft.reconcileEntries, if_neg (by omega), reconcileLoop_skip hi h.lt_logLength hes,
      List.drop_drop, hp, h1]
    rfl
  rw [reconcileCovered, h.snapIndex]
  split
  · -- nothing is left of the request, and the log stays as it is
    next hge =>
    rw [List.drop_eq_nil_of_le hge, Raft.reconcileLoop, Option.some_inj, Prod.mk.injEq] at h1
    obtain ⟨rfl, rfl⟩ := h1
    have h' := h.batchAppend []
    obtain ⟨e, he, hlog⟩ := h'.log
    refine ⟨_, rf', hleft, rfl, ?_⟩
    exact ⟨h'.lt, h.snapIndex, ⟨e, he, (List.append_nil _).symm.trans hlog⟩, h.currentTerm,
      h.votedFor, h.state, h.commitIndex⟩
  · next hlt =>
    refine ⟨_, _, hleft, ?_, h3.batchAppend rest⟩
    rw [Raft.reconcileEntries, if_neg (by omega), h2]
    rfl

/-- Both snapshots cover `prevLogIndex`. -/
theorem reconcileCovered (h : Compacts s rf rf') {p : Nat} (es : List (Entry Cmd))
    (hp : p ≤ rf.snapIndex) (hes : ∀ j e, es[j]? = some e → rf.snapIndex < p + 1 + j →
      p + 1 + j ≤ s → rf.get (p + 1 + j) = some e) :
    ∃ rf₁ rf₁', rf.reconcileCovered p es = some rf₁ ∧
      rf'.reconcileCovered p es = some rf₁' ∧ Compacts s rf₁ rf₁' := by
  have hlt := h.lt
  rcases Nat.lt_or_ge (rf.snapIndex - p) es.length with hsome | hnone
  · rw [Raft.reconcileCovered, if_neg (by omega)]
    refine h.reconcileEntries es (by omega) hsome.le (by omega) fun k e hk hle ↦ ?_
    rw [List.getElem?_drop] at hk
    have hget := hes _ e hk (by omega) (by omega)
    rwa [show p + 1 + (rf.snapIndex - p + k) = rf.snapIndex + 1 + k by omega] at hget
  · rw [Raft.reconcileCovered, if_pos hnone, Raft.reconcileCovered, h.snapIndex,
      if_pos (by omega)]
    exact ⟨rf, rf', rfl, rfl, h⟩

omit [Labgob (Saved n Cmd)] in
theorem taken (h : Compacts s rf rf') (leaderCommit : Nat) :
    Compacts s (rf.taken leaderCommit).1 (rf'.taken leaderCommit).1 ∧
      SameReply s (rf.taken leaderCommit).2 (rf'.taken leaderCommit).2 :=
  ⟨h.tryUpdateCommit leaderCommit, h.currentTerm, rfl, rfl, Or.inl rfl, rfl⟩

/-- Both servers compare at `prevLogIndex`, beyond the snapshots. -/
theorem appendEntries_beyond (h : Compacts s rf rf') {args : AppendEntriesArgs n Cmd}
    (hterm : ¬ args.term < (rf.heedLeader args.term).currentTerm) (hgt : s < args.prevLogIndex) :
    ∃ rf₁ rf₁' r r', rf.appendEntries args = some (rf₁, r) ∧
      rf'.appendEntries args = some (rf₁', r') ∧ Compacts s rf₁ rf₁' ∧ SameReply s r r' := by
  replace h := h.heedLeader args.term
  rw [Raft.appendEntries, Raft.appendEntries]
  dsimp only
  generalize rf.heedLeader args.term = rf at h hterm
  generalize rf'.heedLeader args.term = rf' at h
  have hlt := h.lt
  rw [h.currentTerm, h.snapIndex, h.logLength, if_neg hterm, if_neg hterm,
    if_neg (show ¬ args.prevLogIndex ≤ rf.snapIndex by omega),
    if_neg (show ¬ args.prevLogIndex ≤ s by omega), h.get hgt]
  split
  · exact ⟨_, _, _, _, rfl, rfl, h, rfl, rfl, rfl, Or.inl rfl, rfl⟩
  next hlen =>
  obtain ⟨prev, hprev⟩ := exists_get rf (i := args.prevLogIndex) (by omega) (by omega)
  simp only [hprev, Option.bind_eq_bind, Option.bind_some]
  split
  · obtain ⟨y, hy, hy'⟩ := h.firstIndexFrom prev.term hgt (by omega)
    rw [hy, hy']
    refine ⟨_, _, _, _, rfl, rfl, h, rfl, rfl, rfl, ?_, rfl⟩
    change ((max y (s + 1) : Nat) : Int) = y ∨ (y : Int) ≤ s ∧ ((max y (s + 1) : Nat) : Int) = s + 1
    omega
  · obtain ⟨rf₁, rf₁', rest, h1, h2, h3⟩ := h.reconcileLoop (i := args.prevLogIndex + 1) (by omega)
      args.entries
    replace h3 := (h3.batchAppend rest).taken args.leaderCommit
    simp only [Raft.reconcileEntries, Nat.not_lt_zero, if_false, List.drop_zero, h1, h2]
    exact ⟨_, _, _, _, rfl, rfl, h3⟩

/-- **`AppendEntries`** from a leader whose log agrees through `s`. -/
theorem appendEntries (h : Compacts s rf rf') {args : AppendEntriesArgs n Cmd}
    (hfit : rf.currentTerm ≤ args.term → rf.Fits s args) :
    ∃ rf₁ rf₁' r r', rf.appendEntries args = some (rf₁, r) ∧
      rf'.appendEntries args = some (rf₁', r') ∧ Compacts s rf₁ rf₁' ∧ SameReply s r r' := by
  have h₁ := h.heedLeader args.term
  by_cases hterm : args.term < (rf.heedLeader args.term).currentTerm
  · rw [Raft.appendEntries, Raft.appendEntries]
    dsimp only
    rw [h₁.currentTerm, if_pos hterm, if_pos hterm]
    exact ⟨_, _, _, _, rfl, rfl, h₁, rfl, rfl, rfl, Or.inl rfl, rfl⟩
  replace hfit := hfit (by rw [heedLeader_currentTerm] at hterm; omega)
  rcases Nat.lt_or_ge s args.prevLogIndex with hgt | hle
  · exact h.appendEntries_beyond hterm hgt
  have hright : rf'.appendEntries args = _ :=
    appendEntries_of_covered (by rwa [h₁.currentTerm]) (by rwa [h.snapIndex])
  rcases Nat.lt_or_ge rf.snapIndex args.prevLogIndex with hlt | hcov
  · -- the term at `prevLogIndex` is compared on one side and taken for granted on the other
    obtain ⟨e, he, hprev⟩ := hfit.prev hlt hle
    obtain ⟨rf₁, rf₁', h1, h2, h3⟩ := h₁.reconcileEntries args.entries (p := args.prevLogIndex)
      (i := args.prevLogIndex + 1) (j := 0) (by omega) (by omega) (by omega)
      fun k x hk hks ↦ by simpa using hfit.entries k x hk (by omega) hks
    rw [hright, appendEntries_of_normal hterm hlt he hprev, h1, h2]
    exact ⟨_, _, _, _, rfl, rfl, h3.taken _⟩
  · obtain ⟨rf₁, rf₁', h1, h2, h3⟩ := h₁.reconcileCovered args.entries (p := args.prevLogIndex)
      (by simpa using hcov) (by simpa using hfit.entries)
    rw [hright, appendEntries_of_covered hterm hcov, h1, h2]
    exact ⟨_, _, _, _, rfl, rfl, h3.taken _⟩

end Compacts

end Handler

/-! ## What can be seen of a server -/

/-- Two servers that differ at most in what they have through index `s`. -/
structure SameAbove (s : Nat) (rf rf' : Raft n Cmd) : Prop where
  /-- The term. -/
  currentTerm : rf'.currentTerm = rf.currentTerm
  /-- The vote. -/
  votedFor : rf'.votedFor = rf.votedFor
  /-- The role. -/
  state : rf'.state = rf.state
  /-- The commit index. -/
  commitIndex : rf'.commitIndex = rf.commitIndex
  /-- The end of the log. -/
  logLength : rf'.logLength = rf.logLength
  /-- The entries beyond `s`. -/
  get : ∀ i, s < i → rf'.get i = rf.get i

theorem Compacts.sameAbove (h : Compacts s rf rf') : SameAbove s rf rf' :=
  ⟨h.currentTerm, h.votedFor, h.state, h.commitIndex, h.logLength, fun _ ↦ h.get⟩

variable [Labgob (Saved n Cmd)]

/-- **Compaction is invisible to the protocol.**  A server that has taken a snapshot at an index `s`
beyond its old one answers every vote request, every `Start`, and every `AppendEntries` of a leader
whose log agrees with the server's through `s` as it would have without the snapshot, except that
`XIndex` may be raised to `s + 1`; and is left in the same state, except for what it has through
`s`. -/
theorem compaction_invisible {data : Bytes} (hs : rf.snapIndex < s)
    (hsnap : rf.snapshotAt s data = some rf') :
    (∀ args, ∃ rf₁ rf₁' reply, rf.requestVote args = some (rf₁, reply) ∧
      rf'.requestVote args = some (rf₁', reply) ∧ SameAbove s rf₁ rf₁') ∧
    (∀ command, (rf'.start command).2 = (rf.start command).2 ∧
      SameAbove s (rf.start command).1 (rf'.start command).1) ∧
    ∀ (ld : Raft n Cmd) es i args, ld.HasLog es → ld.singleAppend i = some (some (.append args)) →
      rf.AgreesThrough es s → ∃ rf₁ rf₁' r r', rf.appendEntries args = some (rf₁, r) ∧
        rf'.appendEntries args = some (rf₁', r') ∧ SameAbove s rf₁ rf₁' ∧ SameReply s r r' := by
  have h := snapshotAt_compacts hsnap hs
  refine ⟨fun args ↦ ?_, fun command ↦ ?_, fun ld es i args hlog hsend hag ↦ ?_⟩
  · obtain ⟨rf₁, rf₁', reply, h1, h2, h3⟩ := h.requestVote args
    exact ⟨rf₁, rf₁', reply, h1, h2, h3.sameAbove⟩
  · exact ⟨(h.start command).1, (h.start command).2.sameAbove⟩
  · obtain ⟨rf₁, rf₁', r, r', h1, h2, h3, h4⟩ :=
      h.appendEntries fun _ ↦ fits_of_singleAppend hlog hsend hag
    exact ⟨rf₁, rf₁', r, r', h1, h2, h3.sameAbove, h4⟩

/-- A follower that has applied the first of two commands. -/
def follower : Raft 3 Nat := { (fresh 1 .empty : Raft 3 Nat) with
  currentTerm := 1, log := [⟨-1, none⟩, ⟨1, some 10⟩, ⟨1, some 11⟩], commitIndex := 1
  lastApplied := 1 }

/-- Its leader, with one more. -/
def leader : Raft 3 Nat := { (fresh 0 .empty : Raft 3 Nat) with
  currentTerm := 1, state := .leader
  log := [⟨-1, none⟩, ⟨1, some 10⟩, ⟨1, some 11⟩, ⟨1, some 12⟩]
  nextIndex := some fun _ ↦ 1, matchIndex := some fun _ ↦ 0 }

/-- The leader sends all it has.  The follower compares from index `1` on, or, once it has compacted
there, from index `2` on. -/
theorem compaction_invisible_follower :
    ∃ rf' args rf₁ rf₁' r r', follower.snapshotAt 1 [7] = some rf' ∧
      leader.singleAppend 1 = some (some (.append args)) ∧
      follower.appendEntries args = some (rf₁, r) ∧ rf'.appendEntries args = some (rf₁', r') ∧
      SameAbove 1 rf₁ rf₁' ∧ SameReply 1 r r' := by
  obtain ⟨rf', hsnap⟩ := exists_snapshotAt (show 1 < follower.logLength by decide) [7]
  have hlog : leader.HasLog [⟨1, some 10⟩, ⟨1, some 11⟩, ⟨1, some 12⟩] := by
    refine ⟨fun i hi ↦ ?_, fun h0 ↦ absurd h0 (by decide)⟩
    cases i with
    | zero => exact absurd hi (by decide)
    | succ i => rfl
  have hag : follower.AgreesThrough [⟨1, some 10⟩, ⟨1, some 11⟩, ⟨1, some 12⟩] 1 := by
    intro i hi hle
    obtain rfl : i = 1 := le_antisymm hle hi
    exact ⟨_, rfl, rfl⟩
  obtain ⟨rf₁, rf₁', r, r', hres⟩ :=
    (compaction_invisible (by decide) hsnap).2.2 leader _ 1 _ hlog rfl hag
  exact ⟨rf', _, rf₁, rf₁', r, r', hsnap, rfl, hres⟩

end Raft

/-! ## In a cluster -/

/-- An `AppendEntries` that is not too old says nothing wrong about what a server has committed. -/
theorem Rel.fits {σ : Cluster n Cmd} {g : RaftLedger n Cmd} (hg : Rel σ g) {v w : Fin n}
    {args : AppendEntriesArgs n Cmd} (hreq : AppendRel g w v args)
    (hterm : (σ.node v).rf.currentTerm ≤ args.term) {s : Nat}
    (hs : s ≤ (σ.node v).rf.commitIndex) : (σ.node v).rf.Fits s args := by
  have hv := (hg.node v).server
  have hlen := hv.commitIndex_le hg.inv
  have hag := hg.inv.agree_of_sealed hv.committed hterm (by rw [hreq.winner]; simp)
  constructor
  · intro hlt hle
    obtain ⟨e, he⟩ : ∃ e, (g.log v)[args.prevLogIndex - 1]? = some e :=
      ⟨_, List.getElem?_eq_getElem (by omega)⟩
    refine ⟨e, (hv.get_eq hlt).trans he, (hreq.prevLogTerm_eq (by omega) ?_).symm⟩
    rw [← hag _ (Nat.zero_le _) (by omega), he]
  · intro j e hj hlt hle
    have hj' := (List.getElem?_eq_some_iff.mp hj).1
    rw [hreq.entries j hj'] at hj
    rw [hv.get_eq hlt, show args.prevLogIndex + 1 + j - 1 = args.prevLogIndex + j by omega,
      hag _ (Nat.zero_le _) (by omega), hj]

namespace Cluster

variable [Labgob (Saved n Cmd)] {σ : Cluster n Cmd}

/-- **In a cluster whose elections are won by majorities**, every `AppendEntries` on the network is
answered alike, whether or not the server it is for has taken a snapshot of what it has applied. -/
theorem append_answered_alike (h : (machine n Cmd).Reach (fun _ _ σ' ↦ σ'.MajorityBacked) σ)
    {call : Call n Cmd} (hmem : call ∈ σ.calls) {k : Nat} {args : AppendEntriesArgs n Cmd}
    {reply : Option AppendEntriesReply} (hr : call.rpc = .append k args reply) {s : Nat}
    {data : Bytes} {rf' : Raft n Cmd} (hlt : (σ.node call.callee).rf.snapIndex < s)
    (happ : s ≤ (σ.node call.callee).rf.lastApplied)
    (hsnap : (σ.node call.callee).rf.snapshotAt s data = some rf') :
    ∃ rf₁ rf₁' r r', (σ.node call.callee).rf.appendEntries args = some (rf₁, r) ∧
      rf'.appendEntries args = some (rf₁', r') ∧ Raft.SameAbove s rf₁ rf₁' ∧
      Raft.SameReply s r r' := by
  obtain ⟨g, hg, -⟩ := rel_of_reach (fun _ _ _ hp ↦ hp) h
  have hreq := hg.request call hmem
  rw [hr] at hreq
  have hcommit := (hg.node call.callee).server.applied
  obtain ⟨rf₁, rf₁', r, r', h1, h2, h3, h4⟩ := (Raft.snapshotAt_compacts hsnap hlt).appendEntries
    fun hterm ↦ hg.fits hreq hterm (happ.trans hcommit)
  exact ⟨rf₁, rf₁', r, r', h1, h2, h3.sameAbove, h4⟩

end Cluster

end DistLabs
