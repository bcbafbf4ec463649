import DistLabs.Raft.Cells
import DistLabs.Raft.Safety

/-!
# No index ever leaves the log

Every access to the log is an absolute index minus `snapIndex`, and the two move at different times.
In the model an index out of range is a step that is `none` although its action can happen.  Which
actions can happen is `Enabled`; it asks for a goroutine at the right place and nothing else.  The
claim is then that an enabled action has an outcome (`indexes_in_range`).

Most sections are safe on any server whose log has its boundary, because they compare before they
index.  Three rely on more: a replicator on `1 ≤ nextIndex[i] ≤ logLength()` (`NextInv`),
`guardKick` and `Snapshot` on a commit index within the log, which is the ledger's doing.
-/

set_option autoImplicit false

namespace DistLabs

variable {n : Nat} {Cmd : Type}

/-! ## Sections that do not fail -/

namespace Raft

variable {rf : Raft n Cmd}

theorem exists_get (rf : Raft n Cmd) {i : Nat} (hle : rf.snapIndex ≤ i) (hlt : i < rf.logLength) :
    ∃ e, rf.get i = some e := by
  rw [logLength] at hlt
  exact ⟨_, get_eq_some.mpr ⟨hle, List.getElem?_eq_getElem (by omega)⟩⟩

theorem snapIndex_lt_logLength (h : rf.log ≠ []) : rf.snapIndex < rf.logLength := by
  have := List.length_pos_of_ne_nil h
  rw [logLength]
  omega

/-- The last index, which every election compares, is there. -/
theorem exists_last (h : rf.log ≠ []) : ∃ e, rf.get (rf.logLength - 1) = some e := by
  have := snapIndex_lt_logLength h
  exact exists_get rf (by omega) (by omega)

theorem exists_updateCommitFrom {m : Fin n → Int} (hm : rf.matchIndex = some m) {N : Nat}
    (hN : N < rf.logLength) : ∃ rf', rf.updateCommitFrom N = some rf' := by
  induction N with
  | zero => exact ⟨rf, rfl⟩
  | succ N ih =>
    rw [updateCommitFrom]
    split
    swap
    · exact ⟨rf, rfl⟩
    next hgt =>
    obtain ⟨c, hc⟩ : ∃ c, rf.countMatch (N + 1) = some c :=
      ⟨_, countMatch_eq_some.mpr ⟨m, hm, rfl⟩⟩
    obtain ⟨e, he⟩ := exists_get rf hgt.2.le hN
    rw [hc, Option.bind_eq_bind, Option.bind_some]
    split
    swap
    · exact ih (by omega)
    rw [he, Option.bind_eq_bind, Option.bind_some]
    split
    · exact ⟨_, rfl⟩
    · exact ih (by omega)

theorem exists_lastIndexFrom (rf : Raft n Cmd) (term : Int) {N : Nat} (hN : N < rf.logLength) :
    ∃ t, rf.lastIndexFrom term N = some t := by
  induction N with
  | zero => exact ⟨_, rfl⟩
  | succ N ih =>
    rw [lastIndexFrom]
    split
    swap
    · exact ⟨_, rfl⟩
    next hgt =>
    obtain ⟨e, he⟩ := exists_get rf hgt.le hN
    rw [he, Option.bind_eq_bind, Option.bind_some]
    split
    · exact ⟨_, rfl⟩
    · exact ih (by omega)

/-- The scan for `XIndex` stays within the log, ends at a positive index and goes nowhere but
back. -/
theorem exists_firstIndexFrom (rf : Raft n Cmd) (xTerm : Int) {x : Nat} (hlt : rf.snapIndex < x)
    (hx : x < rf.logLength) : ∃ y, rf.firstIndexFrom xTerm x = some y ∧ 1 ≤ y ∧ y ≤ x := by
  induction x with
  | zero => omega
  | succ x ih =>
    rw [firstIndexFrom]
    split
    swap
    · exact ⟨_, rfl, by omega, le_rfl⟩
    next hge =>
    obtain ⟨e, he⟩ := exists_get rf (i := x) (by omega) (by omega)
    rw [he, Option.bind_eq_bind, Option.bind_some]
    split
    · obtain ⟨y, hy, h1, h2⟩ := ih (by omega) (by omega)
      exact ⟨y, hy, h1, by omega⟩
    · exact ⟨_, rfl, by omega, le_rfl⟩

theorem exists_reconcileLoop {i : Nat} (hi : rf.snapIndex ≤ i) (es : List (Entry Cmd)) :
    ∃ r, rf.reconcileLoop i es = some r := by
  induction es generalizing i with
  | nil => exact ⟨_, rfl⟩
  | cons e es ih =>
    rw [reconcileLoop]
    split
    swap
    · exact ⟨_, rfl⟩
    next hlt =>
    obtain ⟨mine, hmine⟩ := exists_get rf hi hlt
    rw [hmine, Option.bind_eq_bind, Option.bind_some]
    split
    · exact ⟨_, rfl⟩
    · exact ih (by omega)

theorem exists_applies (rf : Raft n Cmd) {i k : Nat} (hk : i + k ≤ rf.logLength) :
    ∃ msgs, rf.applies i k = some msgs := by
  induction k generalizing i with
  | zero => exact ⟨_, rfl⟩
  | succ k ih =>
    obtain ⟨rest, hrest⟩ := ih (i := i + 1) (by omega)
    rw [applies]
    split
    · exact ⟨rest, hrest⟩
    · obtain ⟨e, he⟩ := exists_get rf (i := i) (by omega) (by omega)
      exact ⟨_, by rw [he, hrest]; rfl⟩

theorem exists_guardKick (h : rf.commitIndex < rf.logLength) : ∃ r, rf.guardKick = some r := by
  rw [guardKick]
  split
  · exact ⟨_, rfl⟩
  · next hge =>
    obtain ⟨msgs, hmsgs⟩ := exists_applies rf (i := rf.lastApplied + 1)
      (k := rf.commitIndex + 1 - (rf.lastApplied + 1)) (by omega)
    exact ⟨_, by rw [hmsgs]; rfl⟩

/-- **A replicator's round** on a leader whose `nextIndex` lies within its log. -/
theorem exists_singleAppend (i : Fin n) (hlog : rf.log ≠ [])
    (hnext : rf.state = .leader → ∃ next, rf.nextIndex = some next ∧ 1 ≤ next i ∧
      next i ≤ rf.logLength) : ∃ out, rf.singleAppend i = some out := by
  rw [singleAppend]
  split
  · exact ⟨_, rfl⟩
  next hlead =>
  obtain ⟨next, hn, h1, h2⟩ := hnext (not_not.mp hlead)
  rw [hn, Option.bind_eq_bind, Option.bind_some]
  dsimp only
  split
  · obtain ⟨b, rest, hb⟩ := List.exists_cons_of_ne_nil hlog
    exact ⟨_, by rw [getSnap, hb]; rfl⟩
  · next hge =>
    obtain ⟨prev, hprev⟩ := exists_get rf (i := (next i - 1).toNat) (by omega) (by omega)
    have hes : rf.entriesFrom ((next i - 1).toNat + 1) = some _ :=
      entriesFrom_eq_some.mpr ⟨by omega, by omega, rfl⟩
    exact ⟨_, by rw [hprev, hes]; rfl⟩

theorem exists_stepBack {next : Fin n → Int} (hn : rf.nextIndex = some next) (hlog : rf.log ≠ [])
    (i : Fin n) (xTerm xIndex xLen : Int) :
    ∃ rf', rf.stepBack i xTerm xIndex xLen = some rf' := by
  have hset : ∀ v, ∃ rf', rf.setNext i v = some rf' := fun v ↦ ⟨_, by rw [setNext, hn]; rfl⟩
  have hlen := snapIndex_lt_logLength hlog
  obtain ⟨t, ht⟩ := exists_lastIndexFrom rf xTerm (N := rf.logLength - 1) (by omega)
  rw [stepBack]
  split
  · exact hset _
  · rw [lastIndexOfTerm, ht, Option.bind_eq_bind, Option.bind_some]
    split
    · exact hset _
    · exact hset _

variable [Labgob (Saved n Cmd)]

theorem exists_reconcileEntries (rf : Raft n Cmd) {i j : Nat} (es : List (Entry Cmd))
    (hi : rf.snapIndex ≤ i)
    (hj : j ≤ es.length) : ∃ rf', rf.reconcileEntries i j es = some rf' := by
  obtain ⟨⟨rf₁, rest⟩, h⟩ := exists_reconcileLoop hi (es.drop j)
  exact ⟨_, by rw [reconcileEntries, if_neg (by omega), h]; rfl⟩

theorem exists_requestVote (h : rf.log ≠ []) (args : RequestVoteArgs n) :
    ∃ r, rf.requestVote args = some r := by
  obtain ⟨last, hlast⟩ := exists_last h
  rw [requestVote]
  split
  · exact ⟨_, rfl⟩
  · rw [tryVotingFor, seeTerm_logLength, seeTerm_get, hlast]
    simp only [Option.bind_eq_bind, Option.bind_some]
    split
    · exact ⟨_, rfl⟩
    · exact ⟨_, rfl⟩

theorem exists_appendEntries (rf : Raft n Cmd) (args : AppendEntriesArgs n Cmd) :
    ∃ r, rf.appendEntries args = some r := by
  rw [appendEntries]
  dsimp only
  split
  · exact ⟨_, rfl⟩
  split
  · split
    · exact ⟨_, rfl⟩
    · next hlt =>
      obtain ⟨rf₁, h⟩ := exists_reconcileEntries (rf.heedLeader args.term) args.entries
        (i := (rf.heedLeader args.term).snapIndex + 1)
        (j := (rf.heedLeader args.term).snapIndex - args.prevLogIndex) (by omega) (by omega)
      exact ⟨_, by rw [h]; rfl⟩
  next hprev =>
  split
  · exact ⟨_, rfl⟩
  next hlen =>
  obtain ⟨prev, hget⟩ := exists_get (rf.heedLeader args.term) (i := args.prevLogIndex)
    (by omega) (by omega)
  rw [hget, Option.bind_eq_bind, Option.bind_some]
  split
  · obtain ⟨y, hy, -⟩ := exists_firstIndexFrom (rf.heedLeader args.term) prev.term
      (x := args.prevLogIndex) (by omega) (by omega)
    exact ⟨_, by rw [hy]; rfl⟩
  · obtain ⟨rf₁, h⟩ := exists_reconcileEntries (rf.heedLeader args.term) args.entries
      (i := args.prevLogIndex + 1) (j := 0) (by omega) (by omega)
    exact ⟨_, by rw [h]; rfl⟩

theorem exists_installSnapshot (rf : Raft n Cmd) (args : InstallSnapshotArgs n) :
    ∃ r, rf.installSnapshot args = some r := by
  rw [installSnapshot]
  split
  · exact ⟨_, rfl⟩
  dsimp only
  split
  · exact ⟨_, rfl⟩
  next hsnap =>
  obtain ⟨newLog, hlog⟩ : ∃ kept, (rf.seeTerm args.term).trimLog args.lastIncludedIndex =
      some (⟨0, none⟩ :: kept) := by
    rw [trimLog]
    split
    · next hlt =>
      have hes : (rf.seeTerm args.term).entriesFrom (args.lastIncludedIndex + 1) = some _ :=
        entriesFrom_eq_some.mpr ⟨by omega, by omega, rfl⟩
      exact ⟨_, by rw [hes]; rfl⟩
    · exact ⟨[], rfl⟩
  rw [takeSnapshot, hlog]
  simp only [setSnap, Option.bind_eq_bind, Option.bind_some, Option.pure_def]
  split
  · exact ⟨_, rfl⟩
  · exact ⟨_, rfl⟩

theorem exists_singleAppendReply (hl : rf.state = .leader → rf.HasLed) (hlog : rf.log ≠ [])
    (i : Fin n) (args : AppendEntriesArgs n Cmd) (reply : AppendEntriesReply) :
    ∃ rf', rf.singleAppendReply i args reply = some rf' := by
  rw [singleAppendReply]
  split
  · exact ⟨_, rfl⟩
  split
  · exact ⟨_, rfl⟩
  next hlead =>
  push Not at hlead
  obtain ⟨⟨next, hn⟩, ⟨m, hm⟩⟩ := hl hlead.2
  split
  · exact exists_stepBack hn hlog i _ _ _
  · have hlen := snapIndex_lt_logLength hlog
    simp only [setMatch, setNext, hm, hn, Option.bind_eq_bind, Option.bind_some, Option.pure_def]
    refine exists_updateCommitFrom rfl ?_
    change rf.logLength - 1 < rf.logLength
    omega

theorem exists_helpInstallReply (hl : rf.HasLed) (i : Fin n) (args : InstallSnapshotArgs n)
    (reply : Int) : ∃ rf', rf.helpInstallReply i args reply = some rf' := by
  obtain ⟨⟨next, hn⟩, ⟨m, hm⟩⟩ := hl
  rw [helpInstallReply]
  split
  · exact ⟨_, rfl⟩
  · simp only [setMatch, setNext, hm, hn, Option.bind_eq_bind, Option.bind_some, Option.pure_def]
    exact ⟨_, rfl⟩

theorem exists_snapshotAt {index : Nat} (h : index < rf.logLength) (data : Bytes) :
    ∃ rf', rf.snapshotAt index data = some rf' := by
  rw [snapshotAt]
  split
  · exact ⟨_, rfl⟩
  · obtain ⟨e, he⟩ := exists_get rf (i := index) (by omega) h
    exact ⟨_, by rw [he]; rfl⟩

/-! ## Refusals -/

/-- An `AppendEntries` whose `prevLogIndex` the snapshot covers is not refused for it. -/
theorem appendEntries_covered {rf' : Raft n Cmd} {args : AppendEntriesArgs n Cmd}
    {reply : AppendEntriesReply} (h : rf.appendEntries args = some (rf', reply))
    (hterm : rf.currentTerm ≤ args.term) (hprev : args.prevLogIndex ≤ rf.snapIndex) :
    reply.success = true := by
  rw [appendEntries] at h
  dsimp only at h
  rw [if_neg (by simpa using hterm), if_pos (by simpa using hprev)] at h
  split at h
  · obtain ⟨-, rfl⟩ := Prod.mk.injEq .. ▸ Option.some_inj.mp h
    rfl
  · obtain ⟨rf₁, -, h⟩ := Option.bind_eq_some_iff.mp h
    obtain ⟨-, rfl⟩ := Prod.mk.injEq .. ▸ Option.some_inj.mp h
    rfl

end Raft

/-- A refusal brings a later term, or the length of a log, or a positive index up to
`prevLogIndex`. -/
def RefusalFits (args : AppendEntriesArgs n Cmd) (reply : AppendEntriesReply) : Prop :=
  reply.success = false → args.term < reply.term ∨ reply.xTerm = -1 ∧ 1 ≤ reply.xLen ∨
    reply.xTerm ≠ -1 ∧ 1 ≤ reply.xIndex ∧ reply.xIndex ≤ args.prevLogIndex

theorem Raft.appendEntries_refusalFits [Labgob (Saved n Cmd)] {rf rf' : Raft n Cmd}
    {args : AppendEntriesArgs n Cmd} {reply : AppendEntriesReply}
    (h : rf.appendEntries args = some (rf', reply)) (hlog : rf.log ≠ [])
    (hterms : ∀ i e, rf.snapIndex < i → rf.get i = some e → 0 ≤ e.term) :
    RefusalFits args reply := by
  intro hno
  rcases appendEntries_spec h with ⟨rfl, href⟩ | ⟨hok, -⟩
  swap
  · rw [hok] at hno
    simp at hno
  rcases lt_or_ge args.term (rf.heedLeader args.term).currentTerm with hlt | hge
  · left
    rcases href with ⟨-, rfl⟩ | ⟨-, rfl⟩ | ⟨-, -, -, -, -, rfl⟩ <;> exact hlt
  have hle : rf.currentTerm ≤ args.term := by
    rw [heedLeader_currentTerm] at hge
    omega
  right
  rcases href with ⟨hlt, -⟩ | ⟨-, rfl⟩ | ⟨prev, x, hget, -, hx, rfl⟩
  · omega
  · have := snapIndex_lt_logLength hlog
    refine Or.inl ⟨rfl, ?_⟩
    change 1 ≤ ((rf.heedLeader args.term).logLength : Int)
    rw [heedLeader_logLength]
    omega
  · -- the entry compared lies beyond the boundary, so its term is a real one
    have hlt : rf.snapIndex < args.prevLogIndex := by
      by_contra hcov
      rw [appendEntries_covered h hle (not_lt.mp hcov)] at hno
      simp at hno
    have hlen := get_lt_logLength hget
    obtain ⟨y, hy, h1, h2⟩ := exists_firstIndexFrom (rf.heedLeader args.term) prev.term
      (x := args.prevLogIndex) (by simpa using hlt) hlen
    obtain rfl := Option.some_inj.mp (hx.symm.trans hy)
    have hT := hterms _ _ hlt (by simpa using hget)
    refine Or.inr ⟨?_, ?_, ?_⟩
    · change prev.term ≠ -1
      omega
    · change 1 ≤ (x : Int)
      omega
    · change (x : Int) ≤ args.prevLogIndex
      omega

/-- The handler of the request has run. -/
def Rpc.answered : Rpc n Cmd → Bool
  | .vote _ _ reply => reply.isSome
  | .append _ _ reply => reply.isSome
  | .install _ _ reply => reply.isSome

namespace Cluster

variable [Labgob (Saved n Cmd)] {σ σ' : Cluster n Cmd} {act : Action n Cmd}
  {g : RaftLedger n Cmd}

/-! ## `nextIndex` stays within the log -/

/-- Where a leader means to go on with its peers, and what those that refused told it. -/
structure NextInv (σ : Cluster n Cmd) : Prop where
  /-- The next index lies within the log or right behind it. -/
  next : ∀ a, (σ.node a).rf.state = .leader → ∃ next, (σ.node a).rf.nextIndex = some next ∧
    ∀ i, i ≠ a → 1 ≤ next i ∧ next i ≤ (σ.node a).rf.logLength
  /-- Refusals name sensible indexes. -/
  refusal : ∀ call ∈ σ.calls, ∀ k args reply, call.rpc = .append k args (some reply) →
    RefusalFits args reply

namespace NextInv

/-- A cell of `nextIndex` is overwritten by a value within the bounds. -/
theorem update {a j : Fin n} {L : Nat} {next : Fin n → Int} {v : Int}
    (h : ∀ i, i ≠ a → 1 ≤ next i ∧ next i ≤ L) (h1 : 1 ≤ v) (h2 : v ≤ L) (i : Fin n)
    (hi : i ≠ a) : 1 ≤ Function.update next j v i ∧ Function.update next j v i ≤ L := by
  by_cases hij : i = j
  · subst hij
    rw [Function.update_self]
    exact ⟨h1, h2⟩
  · rw [Function.update_of_ne hij]
    exact h i hi

omit [Labgob (Saved n Cmd)] in
/-- What a leader has sent in its own term lies within its log. -/
theorem append_fits (hg : Rel σ g) {call : Call n Cmd} {k : Nat} {args : AppendEntriesArgs n Cmd}
    {reply : Option AppendEntriesReply} (hmem : call ∈ σ.calls)
    (hr : call.rpc = .append k args reply)
    (hlead : (σ.node call.caller).rf.state = .leader)
    (hterm : (σ.node call.caller).rf.currentTerm = args.term) :
    args.prevLogIndex + args.entries.length + 1 ≤ (σ.node call.caller).rf.logLength := by
  have hreq := hg.request call hmem
  rw [hr] at hreq
  have hs := (hg.node call.caller).server
  have hlen := AppendRel.length hreq
  rw [← hterm, (hs.leader hlead).log] at hlen
  rw [hs.logLength]
  omega

omit [Labgob (Saved n Cmd)] in
/-- What a leader has to go by when it is refused. -/
theorem back_fits {rf : Raft n Cmd} {args : AppendEntriesArgs n Cmd} {reply : AppendEntriesReply}
    {v : Int} (hv : rf.BackTo reply v) (hfit : RefusalFits args reply) (hno : reply.success = false)
    (hle : reply.term ≤ args.term) (hlog : rf.log ≠ []) (hprev : args.prevLogIndex < rf.logLength) :
    1 ≤ v ∧ v ≤ rf.logLength := by
  have hpos := Raft.snapIndex_lt_logLength hlog
  have hx := (hfit hno).resolve_left (by omega)
  rcases hv with ⟨hxt, rfl⟩ | ⟨j, e, -, he, rfl⟩ | ⟨hxt, rfl⟩
  · rcases hx with ⟨-, hlen⟩ | ⟨hne, -⟩
    · omega
    · exact absurd hxt hne
  · have := Raft.get_lt_logLength he
    omega
  · rcases hx with ⟨heq, -⟩ | ⟨-, h1, h2⟩
    · exact absurd heq hxt
    · omega

theorem next_step (hi : σ.NextInv) (h : Trans σ act σ') (hσ : σ.AtRest) (hg : Rel σ g) (a : Fin n)
    (hs' : (σ'.node a).rf.state = .leader) : ∃ next, (σ'.node a).rf.nextIndex = some next ∧
      ∀ i, i ≠ a → 1 ≤ next i ∧ next i ≤ (σ'.node a).rf.logLength := by
  have hpos := Raft.snapIndex_lt_logLength (hσ a).2.log_ne
  rcases h.leader_cases hσ hs' with ⟨hs, -⟩ | ⟨-, hrf⟩
  swap
  · rw [hrf]
    refine ⟨_, rfl, fun i hne ↦ ?_⟩
    rw [← (hσ a).1] at hne
    dsimp only [Raft.becomeLeader]
    rw [if_neg hne]
    change 1 ≤ ((σ.node a).rf.logLength : Int) - 1 + 1 ∧
      ((σ.node a).rf.logLength : Int) - 1 + 1 ≤ (σ.node a).rf.logLength
    omega
  obtain ⟨next, hnext, hb⟩ := hi.next a hs
  have hgrow := h.leader_logLength hσ hg hs hs'
  have hcells := h.cells hσ a
  generalize (σ'.node a).rf = rf' at hcells hs' hgrow
  cases hcells with
  | kept hn _ =>
    refine ⟨next, hn.trans hnext, fun i hne ↦ ?_⟩
    have := hb i hne
    omega
  | elected hc => exact absurd (hs.symm.trans hc) (by simp)
  | restarted _ hrf =>
    rw [hrf] at hs'
    simp [Raft.revived, Raft.fresh] at hs'
  | refused hact hc hw hr ha hno hlead hterm hle hn hv hrf =>
    subst ha hrf
    obtain rfl := Option.some_inj.mp (hnext.symm.trans hn)
    have hmem := List.mem_of_getElem? hc
    have hfit := append_fits hg hmem hr hlead hterm
    obtain ⟨h1, h2⟩ := back_fits hv (hi.refusal _ hmem _ _ _ hr) hno (hterm ▸ hle)
      (hσ _).2.log_ne (by omega)
    exact ⟨_, rfl, update hb h1 h2⟩
  | matched hact hc hw hr ha hok hlead hterm hn hm hn' hm' hlen =>
    subst ha
    obtain rfl := Option.some_inj.mp (hnext.symm.trans hn)
    have hfit := append_fits hg (List.mem_of_getElem? hc) hr hlead hterm
    rw [hlen]
    exact ⟨_, hn', update hb (by omega) (by omega)⟩
  | installed hact hc hw hr ha hle hn hm hrf =>
    subst ha hrf
    obtain rfl := Option.some_inj.mp (hnext.symm.trans hn)
    have hreq := hg.request _ (List.mem_of_getElem? hc)
    rw [hr] at hreq
    have hsnap := hreq.2
    exact ⟨_, rfl, update hb (by omega) (by
      change _ ≤ ((σ.node _).rf.logLength : Int)
      omega)⟩

theorem refusal_step (hi : σ.NextInv) (h : Trans σ act σ') (hσ : σ.AtRest) (hg : Rel σ g)
    (call' : Call n Cmd) (hmem : call' ∈ σ'.calls) (k : Nat) (args : AppendEntriesArgs n Cmd)
    (reply : AppendEntriesReply) (hr : call'.rpc = .append k args (some reply)) :
    RefusalFits args reply := by
  obtain ⟨c, hc'⟩ := List.mem_iff_getElem?.mp hmem
  rcases h.call_cases hc' with ⟨call, hc, hk⟩ | ⟨-, hreq, -⟩ | ⟨call, -, hc, hrep, -⟩
  · exact hi.refusal call (List.mem_of_getElem? hc) k args reply (hk.rpc ▸ hr)
  · cases hreq <;> simp at hr
  · rw [hr] at hrep
    cases hrep with
    | append _ hrf =>
      refine Raft.appendEntries_refusalFits hrf (hσ _).2.log_ne fun i e hlt he ↦ ?_
      -- an entry beyond the boundary was written by the leader of its term
      rw [(hg.node _).server.get_eq hlt] at he
      have hlog := hg.inv.log_mem_leaderLog he
      exact hg.inv.nonneg _ (hg.inv.winner_of_has ⟨e, hlog, rfl⟩)

end NextInv

theorem nextInv_of_reach (h : (machine n Cmd).Reach (fun _ _ σ' ↦ σ'.MajorityBacked) σ) :
    σ.NextInv := by
  refine h.invariant (I := NextInv) ?_ fun σ act σ' hr hi hs _ ↦ ?_
  · constructor <;> simp [machine, init, Raft.fresh]
  · obtain ⟨g, hg, -⟩ := rel_of_reach (fun _ _ _ hp ↦ hp) hr
    have hσ := atRest_of_reach hr
    have ht := Trans.of_step hs
    exact ⟨hi.next_step ht hσ hg, hi.refusal_step ht hσ hg⟩

/-! ## Every action that can happen has an outcome -/

/-- The action can happen: the goroutine, the call or the message it is about is there. -/
def Enabled (σ : Cluster n Cmd) : Action n Cmd → Prop
  | .tick a => (σ.node a).rf.state ≠ .leader
  | .askVote r j => ∃ op, σ.opinions[r]? = some op ∧ j ∈ op.pending
  | .replicate k => ∃ w, σ.replicators[k]? = some w ∧ w.alive = true ∧ w.busy = false
  | .deliver c => ∃ call, σ.calls[c]? = some call ∧ call.rpc.answered = false
  | .answer c => ∃ call, σ.calls[c]? = some call ∧ call.waiting = true ∧ call.rpc.answered = true
  | .lose c => ∃ call, σ.calls[c]? = some call ∧ call.waiting = true
  | .start _ _ => True
  | .snapshot a index _ => ∃ m ∈ (σ.node a).received, m.index = index
  | .wake a => (σ.node a).rf.wakeCh = true ∧ (σ.node a).woken = false ∧ (σ.node a).batch = []
  | .collect a => (σ.node a).woken = true
  | .send a => (σ.node a).batch ≠ []
  | .sendSnap a k => k < (σ.node a).snapSends.length
  | .restart _ => True

section Outcomes

variable (hσ : σ.AtRest)
include hσ

theorem exists_askVote {r : Nat} {j : Fin n} (h : σ.Enabled (.askVote r j)) :
    ∃ σ', σ.askVote r j = some σ' := by
  obtain ⟨op, hop, hj⟩ := h
  obtain ⟨last, hlast⟩ := Raft.exists_last (hσ op.server).2.log_ne
  obtain ⟨args, hargs⟩ : ∃ args, (σ.node op.server).rf.requestVoteArgs = some args :=
    ⟨_, by rw [Raft.requestVoteArgs, hlast]; rfl⟩
  exact ⟨_, by
    simp only [askVote, hop, Option.bind_eq_bind, Option.bind_some, if_pos hj, hargs]
    rfl⟩

theorem exists_replicate {k : Nat} (h : σ.Enabled (.replicate k)) (hi : σ.NextInv)
    (hpeer : ∀ w ∈ σ.replicators, w.peer ≠ w.server) : ∃ σ', σ.replicate k = some σ' := by
  obtain ⟨w, hw, hready⟩ := h
  obtain ⟨out, hout⟩ := Raft.exists_singleAppend w.peer (hσ w.server).2.log_ne fun hs ↦ by
    obtain ⟨next, hn, hb⟩ := hi.next w.server hs
    exact ⟨next, hn, hb w.peer (hpeer w (List.mem_of_getElem? hw))⟩
  simp only [replicate, hw, Option.bind_eq_bind, Option.bind_some, if_pos hready, hout]
  match out with
  | none | some (.append _) | some (.install _) => exact ⟨_, rfl⟩

theorem exists_deliver {c : Nat} (h : σ.Enabled (.deliver c)) : ∃ σ', σ.deliver c = some σ' := by
  obtain ⟨call, hc, hno⟩ := h
  simp only [deliver, hc, Option.bind_eq_bind, Option.bind_some]
  match hr : call.rpc with
  | .vote r args none =>
    obtain ⟨res, hres⟩ := Raft.exists_requestVote (hσ call.callee).2.log_ne args
    exact ⟨_, by simp only [hres]; rfl⟩
  | .append k args none =>
    obtain ⟨res, hres⟩ := Raft.exists_appendEntries (σ.node call.callee).rf args
    exact ⟨_, by simp only [hres]; rfl⟩
  | .install k args none =>
    obtain ⟨res, hres⟩ := Raft.exists_installSnapshot (σ.node call.callee).rf args
    exact ⟨_, by simp only [hres]; rfl⟩
  | .vote _ _ (some _) | .append _ _ (some _) | .install _ _ (some _) =>
    rw [hr] at hno
    simp [Rpc.answered] at hno

theorem exists_answer {c : Nat} (h : σ.Enabled (.answer c)) (hp : σ.PollInv) (hl : σ.LedInv) :
    ∃ σ', σ.answer c = some σ' := by
  obtain ⟨call, hc, hw, hyes⟩ := h
  have hmem := List.mem_of_getElem? hc
  simp only [answer, hc, Option.bind_eq_bind, Option.bind_some, if_pos hw]
  match hr : call.rpc with
  | .vote r args (some reply) =>
    obtain ⟨-, -, op, hop, -⟩ := hp.asked c call r args ⟨hc, some reply, hr⟩
    exact ⟨_, by simp only [answerVote, hop]; rfl⟩
  | .append k args (some reply) =>
    obtain ⟨rf', hrf⟩ := Raft.exists_singleAppendReply (hl.leader call.caller)
      (hσ call.caller).2.log_ne call.callee args reply
    exact ⟨_, by simp only [answerAppend, hrf]; rfl⟩
  | .install k args (some reply) =>
    obtain ⟨rf', hrf⟩ := Raft.exists_helpInstallReply
      (hl.waiting call hmem hw (by rw [hr]; trivial)) call.callee args reply
    exact ⟨_, by simp only [answerInstall, hrf]; rfl⟩
  | .vote _ _ none | .append _ _ none | .install _ _ none =>
    rw [hr] at hyes
    simp [Rpc.answered] at hyes

end Outcomes

/-- **No index ever leaves the log.**  In a run whose elections are won by majorities, every action
that can happen has an outcome: none of its accesses to the log, to `nextIndex` and `matchIndex` or
to the entries of a request is out of range.  In particular every log has its boundary, every commit
index lies within the log, and so does, or right behind it, whatever a leader means to send next. -/
theorem indexes_in_range (h : (machine n Cmd).Reach (fun _ _ σ' ↦ σ'.MajorityBacked) σ) :
    (∀ act, σ.Enabled act → ∃ σ', σ.step act = some σ') ∧
    ∀ a, 1 ≤ (σ.node a).rf.log.length ∧
      (σ.node a).rf.commitIndex ≤ (σ.node a).rf.logLength - 1 ∧
      ((σ.node a).rf.state = .leader → ∃ next, (σ.node a).rf.nextIndex = some next ∧
        ∀ i, i ≠ a → 1 ≤ next i ∧ next i ≤ (σ.node a).rf.logLength) := by
  obtain ⟨g, hg, -⟩ := rel_of_reach (fun _ _ _ hp ↦ hp) h
  have hσ := atRest_of_reach h
  have hi := nextInv_of_reach h
  have hcommit : ∀ a, (σ.node a).rf.commitIndex < (σ.node a).rf.logLength := by
    intro a
    have := (hg.node a).server.commitIndex_le hg.inv
    rw [(hg.node a).server.logLength]
    omega
  refine ⟨fun act hact ↦ ?_, fun a ↦ ⟨List.length_pos_of_ne_nil (hσ a).2.log_ne, ?_, hi.next a⟩⟩
  swap
  · have := hcommit a
    omega
  cases act with
  | tick a => exact ⟨_, if_neg hact⟩
  | askVote r j => exact exists_askVote hσ hact
  | replicate k => exact exists_replicate hσ hact hi hg.replicator
  | deliver c => exact exists_deliver hσ hact
  | answer c => exact exists_answer hσ hact (pollInv_of_reach h) (ledInv_of_reach h)
  | lose c =>
    obtain ⟨call, hc, hw⟩ := hact
    simp only [step, lose, hc, Option.bind_eq_bind, Option.bind_some, if_pos hw]
    match call.rpc with
    | .vote _ _ _ | .append _ _ _ | .install _ _ _ => exact ⟨_, rfl⟩
  | start a command => exact ⟨_, rfl⟩
  | snapshot a index data =>
    -- what was received is applied, what is applied is committed
    have hreceived : ∃ m ∈ (σ.node a).received, m.index = index := hact
    obtain ⟨m, hm, hidx⟩ := hact
    have happ := ((hg.node a).msgs m (List.mem_append_left _ hm)).2
    have hlt : index < (σ.node a).rf.logLength := by
      have := (hg.node a).server.applied
      have := hcommit a
      omega
    obtain ⟨rf', hrf⟩ := Raft.exists_snapshotAt hlt data
    exact ⟨_, by simp only [step, snapshot, if_pos hreceived, hrf]; rfl⟩
  | wake a => exact ⟨_, if_pos hact⟩
  | collect a =>
    obtain ⟨r, hr⟩ := Raft.exists_guardKick (hcommit a)
    have hwoken : (σ.node a).woken = true := hact
    exact ⟨_, by simp only [step, collect, if_pos hwoken, hr]; rfl⟩
  | send a =>
    obtain ⟨m, rest, hb⟩ := List.exists_cons_of_ne_nil hact
    exact ⟨_, by simp only [step, send, hb]; rfl⟩
  | sendSnap a k =>
    have hk : (σ.node a).snapSends[k]? = some _ := List.getElem?_eq_getElem hact
    exact ⟨_, by simp only [step, sendSnap, hk]; rfl⟩
  | restart a =>
    have hmake := Raft.make_of_onDisk (hσ a).2.onDisk
    rw [(hσ a).1] at hmake
    exact ⟨_, by simp only [step, restart, hmake]; rfl⟩

/-- After the first commit `guardKick` of the leader can take its token and build its batch. -/
theorem indexes_in_range_firstCommit :
    ∃ σ : Cluster 3 Nat, (machine 3 Nat).Reach (fun _ _ σ' ↦ σ'.MajorityBacked) σ ∧
      (σ.node 0).rf.commitIndex = 1 ∧ σ.Enabled (.collect 0) ∧
      ∃ σ', σ.step (.collect 0) = some σ' := by
  obtain ⟨σ, hσ, hc, hw⟩ := Machine.exists_reach_of_exec (M := machine 3 Nat)
    (P := fun _ _ σ' ↦ σ'.MajorityBacked)
    (Q := fun σ ↦ (σ.node 0).rf.commitIndex = 1 ∧ (σ.node 0).woken = true)
    (firstCommit ++ [.wake 0]) (by decide +kernel)
  exact ⟨σ, hσ, hc, hw, (indexes_in_range hσ).1 (.collect 0) hw⟩

end Cluster

end DistLabs
