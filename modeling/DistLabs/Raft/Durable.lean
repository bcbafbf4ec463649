import DistLabs.Raft.Trans

/-!
# Nothing unsaved is ever visible

A server writes term, vote, log, boundary and snapshot from about a dozen places.  `AtRest` says
what holds of a server whenever its lock is free: the disk holds exactly these five values.  Each
section is shown to end at rest, and on the way to keep the promises a server makes across its
whole life, restarts included — its term and its snapshot never go back, and in one term its vote
never changes.  `Evolves` is that relation between a server before and after.

The messages follow: a request is read off the server's memory while the lock is held and nothing
is written, a reply is read off it at the end of the handler, so both say what the disk says.
-/

set_option autoImplicit false

namespace DistLabs

variable {n : Nat} {Cmd : Type}

/-- What the four saved values are when nothing was ever saved. -/
def Saved.initial : Saved n Cmd := ⟨0, none, [⟨-1, none⟩], 0⟩

namespace Raft

variable [Labgob (Saved n Cmd)]

/-- The disk holds the server's term, vote, log, boundary and snapshot; an empty disk stands for
the values of a new server. -/
def OnDisk (rf : Raft n Cmd) : Prop :=
  (rf.persister = .empty ∧ rf.saved = .initial ∧ rf.snapshot = []) ∨
  (rf.persister.raftstate ≠ [] ∧ Labgob.decode rf.persister.raftstate = some rf.saved ∧
    rf.persister.snapshot = rf.snapshot)

/-- What holds of a server whenever its lock is free. -/
structure AtRest (rf : Raft n Cmd) : Prop where
  /-- Everything that has to be is saved. -/
  onDisk : rf.OnDisk
  /-- The log has its boundary. -/
  log_ne : rf.log ≠ []

/-- What a server keeps to from one moment to a later one. -/
structure Evolves (rf rf' : Raft n Cmd) : Prop where
  /-- It is at rest again. -/
  atRest : rf'.AtRest
  /-- It is the same server. -/
  me : rf'.me = rf.me
  /-- Its term does not go back. -/
  term : rf.currentTerm ≤ rf'.currentTerm
  /-- Within a term its vote stays. -/
  vote : rf'.currentTerm = rf.currentTerm → ∀ c, rf.votedFor = some c → rf'.votedFor = some c
  /-- Its snapshot does not go back. -/
  snap : rf.snapIndex ≤ rf'.snapIndex

/-! ## Saving and reading back -/

theorem OnDisk.snapshot_eq {rf : Raft n Cmd} (h : rf.OnDisk) :
    rf.persister.snapshot = rf.snapshot := by
  rcases h with ⟨hp, -, hs⟩ | ⟨-, -, hs⟩
  · rw [hp, hs]
    rfl
  · exact hs

theorem onDisk_persist (rf : Raft n Cmd) : (persist rf).OnDisk :=
  Or.inr ⟨Labgob.encode_ne_nil _, Labgob.decode_encode _, rfl⟩

/-- The five values and the disk are all that matters. -/
theorem OnDisk.congr {rf rf' : Raft n Cmd} (h : rf.OnDisk) (hp : rf'.persister = rf.persister)
    (hs : rf'.saved = rf.saved) (hsn : rf'.snapshot = rf.snapshot) : rf'.OnDisk := by
  rw [OnDisk, hp, hs, hsn]
  exact h

/-- The server as `Make` brings it back: the five values, and nothing else, survive. -/
def revived (rf : Raft n Cmd) : Raft n Cmd :=
  { (fresh rf.me rf.persister : Raft n Cmd) with
    currentTerm := rf.currentTerm, votedFor := rf.votedFor, log := rf.log,
    snapIndex := rf.snapIndex, snapshot := rf.snapshot }

/-- **`Make` reads back what the server had.** -/
theorem make_of_onDisk {rf : Raft n Cmd} (h : rf.OnDisk) :
    make rf.me rf.persister = some rf.revived := by
  rcases h with ⟨hp, hs, hsn⟩ | ⟨hne, hd, hsn⟩
  · rw [saved, Saved.initial, Saved.mk.injEq] at hs
    obtain ⟨h1, h2, h3, h4⟩ := hs
    rw [make, readPersist, if_pos (by rw [hp]; rfl), revived, h1, h2, h3, h4, hsn]
    rfl
  · rw [make, readPersist, if_neg hne, hd]
    simp only [saved, revived, fresh, hsn]

/-! ## Every section -/

theorem AtRest.evolves {rf : Raft n Cmd} (h : rf.AtRest) : Evolves rf rf :=
  ⟨h, rfl, le_rfl, fun _ _ hc ↦ hc, le_rfl⟩

/-- A section that leaves the five values and the disk alone. -/
theorem AtRest.evolves_of_eq {rf rf' : Raft n Cmd} (h : rf.AtRest) (hme : rf'.me = rf.me)
    (hp : rf'.persister = rf.persister) (hs : rf'.saved = rf.saved)
    (hsn : rf'.snapshot = rf.snapshot) : Evolves rf rf' := by
  have hs' := hs
  rw [saved, saved, Saved.mk.injEq] at hs'
  obtain ⟨h1, h2, h3, h4⟩ := hs'
  exact ⟨⟨h.onDisk.congr hp hs hsn, h3 ▸ h.log_ne⟩, hme, h1.ge, fun _ _ hc ↦ h2.trans hc, h4.ge⟩

theorem Evolves.trans {rf rf' rf'' : Raft n Cmd} (h : Evolves rf rf') (h' : Evolves rf' rf'') :
    Evolves rf rf'' where
  atRest := h'.atRest
  me := h'.me.trans h.me
  term := h.term.trans h'.term
  vote heq c hc := by
    have h1 := h.term
    have h2 := h'.term
    exact h'.vote (by omega) c (h.vote (by omega) c hc)
  snap := h.snap.trans h'.snap

/-- A section that ends by saving, in the same term with the same vote. -/
theorem Evolves.persist {rf rf₁ rf' : Raft n Cmd} (h : Evolves rf rf₁) (hlog : rf'.log ≠ [])
    (hme : rf'.me = rf₁.me) (ht : rf'.currentTerm = rf₁.currentTerm)
    (hv : rf'.votedFor = rf₁.votedFor) (hs : rf₁.snapIndex ≤ rf'.snapIndex) :
    Evolves rf rf'.persist :=
  h.trans ⟨⟨onDisk_persist _, hlog⟩, hme, ht.ge, fun _ _ hc ↦ hv.trans hc, hs⟩

theorem newGen_evolves {rf : Raft n Cmd} (h : rf.AtRest) {T : Int} (hT : rf.currentTerm < T) :
    Evolves rf (rf.newGen T) :=
  ⟨⟨onDisk_persist _, h.log_ne⟩, rfl, hT.le, fun heq ↦ absurd heq hT.ne', le_rfl⟩

theorem seeTerm_evolves {rf : Raft n Cmd} (h : rf.AtRest) (T : Int) :
    Evolves rf (rf.seeTerm T) := by
  rcases lt_or_ge rf.currentTerm T with hlt | hge
  · rw [seeTerm_of_lt hlt]
    exact newGen_evolves h hlt
  · rw [seeTerm_of_le hge]
    exact h.evolves

theorem heedLeader_evolves {rf : Raft n Cmd} (h : rf.AtRest) (T : Int) :
    Evolves rf (rf.heedLeader T) := by
  have hs := seeTerm_evolves h T
  refine hs.trans ?_
  rw [heedLeader_eq]
  exact hs.atRest.evolves_of_eq rfl rfl rfl rfl

theorem becomeCandidate_evolves {rf : Raft n Cmd} (h : rf.AtRest) :
    Evolves rf rf.becomeCandidate := by
  refine ⟨⟨onDisk_persist _, h.log_ne⟩, rfl, ?_, ?_, le_rfl⟩
  · change rf.currentTerm ≤ rf.currentTerm + 1
    omega
  · intro heq
    change rf.currentTerm + 1 = rf.currentTerm at heq
    omega

theorem requestVote_evolves {rf rf' : Raft n Cmd} {args : RequestVoteArgs n}
    {reply : RequestVoteReply} (h : rf.AtRest) (hr : rf.requestVote args = some (rf', reply)) :
    Evolves rf rf' := by
  have hs := seeTerm_evolves h args.term
  rcases (requestVote_spec hr).2 with ⟨-, rfl⟩ | ⟨-, -, hfree, -, rfl⟩
  · exact hs
  · refine hs.trans ⟨⟨onDisk_persist _, hs.atRest.log_ne⟩, rfl, le_rfl, fun _ c hc ↦ ?_, le_rfl⟩
    rcases hfree with hn | hsame
    · rw [hn] at hc
      simp at hc
    · exact hsame.symm.trans hc

omit [Labgob (Saved n Cmd)] in
theorem mergedLog_ne_nil {rf : Raft n Cmd} (h : rf.log ≠ []) (args : AppendEntriesArgs n Cmd) :
    rf.mergedLog args ≠ [] := by
  obtain ⟨b, rest, hlog⟩ := List.exists_cons_of_ne_nil h
  have hk : max args.prevLogIndex rf.snapIndex + 1 - rf.snapIndex =
      max args.prevLogIndex rf.snapIndex - rf.snapIndex + 1 := by omega
  rw [mergedLog, hk, hlog, List.take_succ_cons]
  simp

theorem appendEntries_evolves {rf rf' : Raft n Cmd} {args : AppendEntriesArgs n Cmd}
    {reply : AppendEntriesReply} (h : rf.AtRest)
    (hr : rf.appendEntries args = some (rf', reply)) : Evolves rf rf' := by
  have hh := heedLeader_evolves h args.term
  rcases appendEntries_spec hr with ⟨rfl, -⟩ | ⟨-, -, -, -, w, rf₁, hrf₁, rfl⟩
  · exact hh
  · have h1 : Evolves rf rf₁ := by
      rcases hrf₁ with ⟨rfl, -⟩ | rfl
      · exact hh
      · exact hh.persist (mergedLog_ne_nil h.log_ne args) rfl rfl rfl le_rfl
    exact h1.trans (h1.atRest.evolves_of_eq rfl rfl rfl rfl)

theorem installSnapshot_evolves {rf rf' : Raft n Cmd} {args : InstallSnapshotArgs n} {reply : Int}
    {msg : Option (ApplyMsg Cmd)} (h : rf.AtRest)
    (hr : rf.installSnapshot args = some (rf', reply, msg)) : Evolves rf rf' := by
  have hs := seeTerm_evolves h args.term
  rcases (installSnapshot_spec hr).2 with ⟨-, rfl, -⟩ | ⟨-, hlt, hcase⟩
  · exact hs
  · have h1 : Evolves rf (rf.restored args) :=
      hs.persist (by simp) rfl rfl rfl (by simpa using hlt.le)
    rcases hcase with ⟨-, -, rfl⟩ | ⟨-, -, rfl⟩
    · exact h1
    · exact h1.trans (h1.atRest.evolves_of_eq rfl rfl rfl rfl)

theorem becomeLeader_evolves {rf : Raft n Cmd} (h : rf.AtRest) : Evolves rf rf.becomeLeader :=
  h.evolves_of_eq rfl rfl rfl rfl

theorem singleAppendReply_evolves {rf rf' : Raft n Cmd} {i : Fin n}
    {args : AppendEntriesArgs n Cmd} {reply : AppendEntriesReply} (h : rf.AtRest)
    (hr : rf.singleAppendReply i args reply = some rf') : Evolves rf rf' := by
  rcases singleAppendReply_spec hr with rfl | ⟨-, -, -, -, next, v, -, -, rfl⟩ |
    ⟨-, -, -, m, next, rf₁, -, -, rfl, hcase⟩
  · exact seeTerm_evolves h _
  · exact h.evolves_of_eq rfl rfl rfl rfl
  · rcases hcase with rfl | ⟨M, e, c, -, -, -, -, -, -, rfl⟩
    · exact h.evolves_of_eq rfl rfl rfl rfl
    · exact h.evolves_of_eq rfl rfl rfl rfl

theorem helpInstallReply_evolves {rf rf' : Raft n Cmd} {i : Fin n} {args : InstallSnapshotArgs n}
    {reply : Int} (h : rf.AtRest) (hr : rf.helpInstallReply i args reply = some rf') :
    Evolves rf rf' := by
  rcases helpInstallReply_spec hr with rfl | ⟨-, m, next, -, -, rfl⟩
  · exact seeTerm_evolves h _
  · exact h.evolves_of_eq rfl rfl rfl rfl

theorem guardKick_evolves {rf rf' : Raft n Cmd} {batch : List (ApplyMsg Cmd)} (h : rf.AtRest)
    (hk : rf.guardKick = some (rf', batch)) : Evolves rf rf' := by
  obtain ⟨rfl, -⟩ := guardKick_spec hk
  exact h.evolves_of_eq rfl rfl rfl rfl

theorem append_evolves {rf : Raft n Cmd} (h : rf.AtRest) (e : Entry Cmd) :
    Evolves rf (rf.append e) :=
  h.evolves.persist (by simp [bEffortKick]) rfl rfl rfl le_rfl

theorem revived_evolves {rf : Raft n Cmd} (h : rf.AtRest) : Evolves rf rf.revived :=
  h.evolves_of_eq rfl rfl rfl rfl

/-! ## Messages -/

omit [Labgob (Saved n Cmd)] in
/-- After a success the log holds an entry of the right term wherever the request had one that the
snapshot does not cover. -/
theorem mergedLog_holds {rf : Raft n Cmd} {args : AppendEntriesArgs n Cmd} (hne : rf.log ≠ [])
    (hprev : args.prevLogIndex ≤ rf.snapIndex ∨
      ∃ prev, rf.get args.prevLogIndex = some prev ∧ prev.term = args.prevLogTerm)
    {j : Nat} {e : Entry Cmd} (hj : args.entries[j]? = some e)
    (hlt : rf.snapIndex < args.prevLogIndex + 1 + j) :
    ∃ e', (rf.mergedLog args)[args.prevLogIndex + 1 + j - rf.snapIndex]? = some e' ∧
      e'.term = e.term := by
  have hlen : max args.prevLogIndex rf.snapIndex + 1 - rf.snapIndex ≤ rf.log.length := by
    rcases hprev with hle | ⟨prev, hget, -⟩
    · have := List.length_pos_of_ne_nil hne
      omega
    · have := get_lt_logLength hget
      have := (get_eq_some.mp hget).1
      rw [logLength] at *
      omega
  have hoff : (args.entries.drop (rf.snapIndex - args.prevLogIndex))[
      j - (rf.snapIndex - args.prevLogIndex)]? = some e := by
    rw [List.getElem?_drop, Nat.add_sub_cancel' (by omega), hj]
  obtain ⟨e', he', hte⟩ := reconcile_term
    (rf.log.drop (max args.prevLogIndex rf.snapIndex + 1 - rf.snapIndex)) hoff
  refine ⟨e', ?_, hte⟩
  rw [mergedLog, List.getElem?_append_right (by rw [List.length_take]; omega), List.length_take,
    Nat.min_eq_left hlen, ← he']
  congr 1
  omega

/-- What a request says of its sender's term, log and snapshot is read off `d`. -/
def RequestFrom (d : Raft n Cmd) : Rpc n Cmd → Prop
  | .vote _ args _ => d.requestVoteArgs = some args
  | .append _ args _ => args.term = d.currentTerm ∧ args.leaderId = d.me ∧
      (d.get args.prevLogIndex).map Entry.term = some args.prevLogTerm ∧
      d.entriesFrom (args.prevLogIndex + 1) = some args.entries
  | .install _ args _ => args.term = d.currentTerm ∧ args.leaderId = d.me ∧
      args.lastIncludedIndex = d.snapIndex ∧ d.getSnap = some args.lastIncludedTerm ∧
      args.data = d.snapshot

/-- What a reply says of its sender is so in `d`: the term, the vote granted, the entries taken or
the reason why not, the snapshot installed. -/
def ReplyFrom (d : Raft n Cmd) : Rpc n Cmd → Prop
  | .vote _ args (some reply) => reply.term = d.currentTerm ∧ (reply.voteGranted = true →
      args.term = d.currentTerm ∧ d.votedFor = some args.candidateId)
  | .append _ args (some reply) => d.Refuses args reply ∨
      reply.success = true ∧ reply.term = d.currentTerm ∧ args.term = d.currentTerm ∧
      ∀ j e, args.entries[j]? = some e → args.prevLogIndex + 1 + j ≤ d.snapIndex ∨
        ∃ e', d.get (args.prevLogIndex + 1 + j) = some e' ∧ e'.term = e.term
  | .install _ args (some reply) => reply = d.currentTerm ∧
      (args.term = d.currentTerm → args.lastIncludedIndex ≤ d.snapIndex)
  | _ => False

omit [Labgob (Saved n Cmd)] in
theorem revived_firstIndexFrom (rf : Raft n Cmd) (T : Int) (x : Nat) :
    rf.revived.firstIndexFrom T x = rf.firstIndexFrom T x := by
  induction x with
  | zero => rfl
  | succ x ih => rw [firstIndexFrom, firstIndexFrom, ih]; rfl

omit [Labgob (Saved n Cmd)] in
theorem revived_refuses {rf : Raft n Cmd} {args : AppendEntriesArgs n Cmd}
    {reply : AppendEntriesReply} (h : rf.Refuses args reply) : rf.revived.Refuses args reply := by
  rcases h with h | h | ⟨prev, x, hget, hne, hx, hreply⟩
  · exact Or.inl h
  · exact Or.inr (Or.inl h)
  · exact Or.inr (Or.inr ⟨prev, x, hget, hne, (revived_firstIndexFrom ..).trans hx, hreply⟩)

theorem requestVote_replyFrom {rf rf' : Raft n Cmd} {r : Nat} {args : RequestVoteArgs n}
    {reply : RequestVoteReply} (h : rf.requestVote args = some (rf', reply)) :
    rf'.revived.ReplyFrom (.vote r args (some reply)) := by
  obtain ⟨hterm, hcase⟩ := requestVote_spec h
  refine ⟨hterm, fun hg ↦ ?_⟩
  rcases hcase with ⟨hn, -⟩ | ⟨-, hle, -, -, rfl⟩
  · rw [hn] at hg
    simp at hg
  · refine ⟨?_, rfl⟩
    change args.term = (rf.seeTerm args.term).currentTerm
    rw [seeTerm_currentTerm, max_eq_right hle]

theorem appendEntries_replyFrom {rf rf' : Raft n Cmd} {k : Nat} {args : AppendEntriesArgs n Cmd}
    {reply : AppendEntriesReply} (hr : rf.AtRest) (h : rf.appendEntries args = some (rf', reply)) :
    rf'.revived.ReplyFrom (.append k args (some reply)) := by
  rcases appendEntries_spec h with ⟨-, href⟩ | ⟨hok, hterm, hle, hprev, w, rf₁, hrf₁, rfl⟩
  · exact Or.inl (revived_refuses href)
  -- both ways the log is the merged one, in the leader's term
  have hlog : rf₁.log = rf.mergedLog args ∧ rf₁.snapIndex = rf.snapIndex ∧
      rf₁.currentTerm = args.term := by
    rcases hrf₁ with ⟨rfl, hsame⟩ | rfl
    · simp [hsame, max_eq_right hle]
    · simp [persist, max_eq_right hle]
  obtain ⟨hlog, hsnap, hcur⟩ := hlog
  refine Or.inr ⟨hok, hterm.trans hcur.symm, hcur.symm, fun j e hj ↦ ?_⟩
  rcases Nat.lt_or_ge rf.snapIndex (args.prevLogIndex + 1 + j) with hlt | hge
  · obtain ⟨e', he', hte⟩ := mergedLog_holds hr.log_ne hprev hj hlt
    refine Or.inr ⟨e', get_eq_some.mpr ⟨hsnap.le.trans hlt.le, ?_⟩, hte⟩
    change rf₁.log[args.prevLogIndex + 1 + j - rf₁.snapIndex]? = some e'
    rw [hlog, hsnap, he']
  · exact Or.inl (hge.trans hsnap.ge)

theorem installSnapshot_replyFrom {rf rf' : Raft n Cmd} {k : Nat} {args : InstallSnapshotArgs n}
    {reply : Int} {msg : Option (ApplyMsg Cmd)}
    (h : rf.installSnapshot args = some (rf', reply, msg)) :
    rf'.revived.ReplyFrom (.install k args (some reply)) := by
  obtain ⟨hterm, hcase⟩ := installSnapshot_spec h
  refine ⟨hterm, fun hcur ↦ ?_⟩
  rcases hcase with ⟨-, rfl, hold⟩ | ⟨-, -, ⟨-, -, rfl⟩ | ⟨-, -, rfl⟩⟩
  · change args.term = (rf.seeTerm args.term).currentTerm at hcur
    change args.lastIncludedIndex ≤ (rf.seeTerm args.term).snapIndex
    rw [seeTerm_currentTerm] at hcur
    rw [seeTerm_snapIndex]
    omega
  · exact le_rfl
  · exact le_rfl

end Raft

namespace Cluster

variable [Labgob (Saved n Cmd)]

/-! ## Whole runs -/

/-- Every server is where it belongs and at rest. -/
def AtRest (σ : Cluster n Cmd) : Prop := ∀ a, (σ.node a).rf.me = a ∧ (σ.node a).rf.AtRest

/-- What `Make` brings back of a server. -/
theorem AtRest.make {σ : Cluster n Cmd} (h : σ.AtRest) {a : Fin n} {rf : Raft n Cmd}
    (hmake : Raft.make a (σ.node a).rf.persister = some rf) : rf = (σ.node a).rf.revived := by
  have hm := Raft.make_of_onDisk (h a).2.onDisk
  rw [(h a).1, hmake, Option.some_inj] at hm
  exact hm

/-- **Every action lets every server evolve.** -/
theorem Trans.evolves {σ σ' : Cluster n Cmd} {act : Action n Cmd} (h : Trans σ act σ')
    (hσ : σ.AtRest) (a : Fin n) : Raft.Evolves (σ.node a).rf (σ'.node a).rf := by
  have hsame : ∀ b, Raft.Evolves (σ.node b).rf (σ.node b).rf := fun b ↦ (hσ b).2.evolves
  -- only one server acts
  have hone : ∀ {b : Fin n} {nd : Node n Cmd}, Raft.Evolves (σ.node b).rf nd.rf →
      Raft.Evolves (σ.node a).rf ((σ.setNode b nd).node a).rf := fun hb ↦
    forall_setNode (P := fun x nd ↦ Raft.Evolves (σ.node x).rf nd.rf) hb hsame a
  cases h with
  | @tick b => exact hone (Raft.becomeCandidate_evolves (hσ b).2)
  | askVote | replicateIdle | replicateAppend | replicateInstall | lose | startRefused
  | snapshotOld => exact hsame a
  | deliverVote _ _ hr => exact hone (Raft.requestVote_evolves (hσ _).2 hr)
  | deliverAppend _ _ hr => exact hone (Raft.appendEntries_evolves (hσ _).2 hr)
  | deliverInstall _ _ hr => exact hone (Raft.installSnapshot_evolves (hσ _).2 hr)
  | answerVote => exact hone (Raft.seeTerm_evolves (hσ _).2 _)
  | countVote => exact hone (Raft.seeTerm_evolves (hσ _).2 _)
  | elect => exact hone (Raft.becomeLeader_evolves (hσ _).2)
  | answerAppend _ _ _ hr => exact hone (Raft.singleAppendReply_evolves (hσ _).2 hr)
  | answerInstall _ _ _ hr => exact hone (Raft.helpInstallReply_evolves (hσ _).2 hr)
  | start => exact hone (Raft.append_evolves (hσ _).2 _)
  | snapshot _ hlt => exact hone ((hσ _).2.evolves.persist (by simp) rfl rfl rfl hlt.le)
  | wake => exact hone ((hσ _).2.evolves_of_eq rfl rfl rfl rfl)
  | collect _ hk => exact hone (Raft.guardKick_evolves (hσ _).2 hk)
  | send | sendSnap => exact hone (hsame _)
  | @restart b rf hmake =>
    obtain rfl := hσ.make hmake
    exact hone (Raft.revived_evolves (hσ b).2)

/-- A server that restarts has its snapshot back. -/
theorem Trans.restart_snap {σ σ' : Cluster n Cmd} {a : Fin n} (h : Trans σ (.restart a) σ')
    (hσ : σ.AtRest) : (σ'.node a).rf.snapIndex = (σ.node a).rf.snapIndex := by
  cases h with
  | restart hmake =>
    obtain rfl := hσ.make hmake
    simp [Raft.revived]

theorem atRest_init : (init : Cluster n Cmd).AtRest :=
  fun _ ↦ ⟨rfl, Or.inl ⟨rfl, rfl, rfl⟩, by simp [init, Raft.fresh]⟩

/-- **In every run every server is at rest whenever its lock is free.** -/
theorem atRest_of_reach {P : Cluster n Cmd → Action n Cmd → Cluster n Cmd → Prop}
    {σ : Cluster n Cmd} (h : (machine n Cmd).Reach P σ) : σ.AtRest := by
  refine h.invariant (I := AtRest) atRest_init fun σ act σ' _ hσ hs _ a ↦ ?_
  have he := (Trans.of_step hs).evolves hσ a
  exact ⟨he.me.trans (hσ a).1, he.atRest⟩

/-- What a crash and a `Make` right now would bring back of server `a`. -/
def restore (σ : Cluster n Cmd) (a : Fin n) : Option (Raft n Cmd) :=
  Raft.make a (σ.node a).rf.persister

theorem AtRest.restore {σ : Cluster n Cmd} (h : σ.AtRest) (a : Fin n) :
    σ.restore a = some (σ.node a).rf.revived := by
  have hm := Raft.make_of_onDisk (h a).2.onDisk
  rwa [(h a).1] at hm

omit [Labgob (Saved n Cmd)] in
/-- A request is built from what is on its sender's disk. -/
theorem Requests.from_disk {σ σ' : Cluster n Cmd} {call : Call n Cmd} (h : Requests σ σ' call) :
    (σ.node call.caller).rf.revived.RequestFrom call.rpc := by
  cases h with
  | vote _ _ _ ha => exact ha
  | append hw ha =>
    obtain ⟨-, hterm, hlead, ⟨prev, hget, hprev⟩, hes, -⟩ := Raft.singleAppend_append ha
    refine ⟨hterm, hlead, ?_, Raft.entriesFrom_eq_some.mpr ⟨?_, ?_, hes⟩⟩
    · change ((σ.node _).rf.get _).map Entry.term = _
      rw [hget, hprev]
      rfl
    · exact (Raft.get_eq_some.mp hget).1.trans (Nat.le_succ _)
    · exact Raft.get_lt_logLength hget
  | install hw ha =>
    obtain ⟨-, snapTerm, hsnap, rfl⟩ := Raft.singleAppend_install ha
    exact ⟨rfl, rfl, rfl, hsnap, rfl⟩

/-- A reply says what is on its sender's disk. -/
theorem Replies.from_disk {σ σ' : Cluster n Cmd} {call : Call n Cmd} {rpc : Rpc n Cmd}
    (hσ : σ.AtRest) (h : Replies σ σ' call rpc) :
    (σ'.node call.callee).rf.revived.ReplyFrom rpc := by
  cases h with
  | vote hr h => exact Raft.requestVote_replyFrom h
  | append hr h => exact Raft.appendEntries_replyFrom (hσ _).2 h
  | install hr h => exact Raft.installSnapshot_replyFrom h

/-- **Nothing unsaved is ever visible.**  Whenever the locks are free, each server's disk holds its
term, vote, log, boundary and snapshot; a crash at that moment followed by `Make` brings these five
back; and whatever request or reply the next action sends says of its sender only what would then
be brought back of it. -/
theorem nothing_unsaved_visible {σ : Cluster n Cmd}
    (h : (machine n Cmd).Reach (fun _ _ _ ↦ True) σ) :
    (∀ a, (σ.node a).rf.OnDisk) ∧
    (∀ a, ∃ d, σ.restore a = some d ∧ d.currentTerm = (σ.node a).rf.currentTerm ∧
      d.votedFor = (σ.node a).rf.votedFor ∧ d.log = (σ.node a).rf.log ∧
      d.snapIndex = (σ.node a).rf.snapIndex ∧ d.snapshot = (σ.node a).rf.snapshot) ∧
    ∀ act σ', σ.step act = some σ' → ∀ c call', σ'.calls[c]? = some call' →
      (σ.calls.length ≤ c → ∃ d, σ'.restore call'.caller = some d ∧ d.RequestFrom call'.rpc) ∧
      (∀ call, σ.calls[c]? = some call → call.rpc ≠ call'.rpc →
        ∃ d, σ'.restore call'.callee = some d ∧ d.ReplyFrom call'.rpc) := by
  have hσ := atRest_of_reach h
  refine ⟨fun a ↦ (hσ a).2.onDisk, fun a ↦ ⟨_, hσ.restore a, rfl, rfl, rfl, rfl, rfl⟩, ?_⟩
  intro act σ' hs c call' hc'
  have hσ' := atRest_of_reach (h.step hs trivial)
  rcases (Trans.of_step hs).call_cases hc' with ⟨call, hc, hkeep⟩ | ⟨rfl, hreq, hnode⟩ |
    ⟨call, -, hc, hrep, -, hcallee, -⟩
  · have hlt := (List.getElem?_eq_some_iff.mp hc).1
    refine ⟨fun hge ↦ absurd hge (by omega), fun call₀ hc₀ hne ↦ ?_⟩
    rw [hc, Option.some_inj] at hc₀
    exact absurd (hc₀ ▸ hkeep.rpc.symm) hne
  · refine ⟨fun _ ↦ ⟨_, hσ'.restore _, ?_⟩, fun call₀ hc₀ ↦ ?_⟩
    · rw [hnode]
      exact hreq.from_disk
    · have := (List.getElem?_eq_some_iff.mp hc₀).1
      omega
  · have hlt := (List.getElem?_eq_some_iff.mp hc).1
    refine ⟨fun hge ↦ absurd hge (by omega), fun _ _ _ ↦ ⟨_, hσ'.restore _, ?_⟩⟩
    rw [hcallee]
    exact hrep.from_disk hσ

/-- Server `0` of three is elected in term `1` with the vote of server `1`. -/
def firstElection : List (Action 3 Nat) := [.tick 0, .askVote 0 1, .deliver 0, .answer 0]

theorem nothing_unsaved_visible_firstElection :
    ∃ σ : Cluster 3 Nat, (machine 3 Nat).Reach (fun _ _ _ ↦ True) σ ∧
      ((σ.node 0).rf.state = .leader ∧ (σ.node 1).rf.votedFor = some 0) ∧
      ∀ a, (σ.node a).rf.OnDisk := by
  obtain ⟨σ, hσ, hQ⟩ := Machine.exists_reach_of_exec (M := machine 3 Nat) (P := fun _ _ _ ↦ True)
    (Q := fun σ ↦ (σ.node 0).rf.state = .leader ∧ (σ.node 1).rf.votedFor = some 0)
    firstElection (by decide +kernel)
  exact ⟨σ, hσ, hQ, (nothing_unsaved_visible hσ).1⟩

end Cluster

end DistLabs
