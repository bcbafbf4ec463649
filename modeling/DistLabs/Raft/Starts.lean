import DistLabs.Raft.Safety

/-!
# What `Start` promises

`Start` returns the index and the term its command will have if it is ever committed.  It does not
say that it will be; but wherever an entry of this term is found at this index, it is that command:
in a log, on a disk, or in a request that is still on its way, however often the entry was copied
and whatever part of the log had been compacted on either side.

On the ledger this is a fact about one log.  The entries of a term are all written into the log of
that term, by its one leader, and each copy of an entry stands where the original does.
-/

set_option autoImplicit false

namespace DistLabs

variable {n : Nat} {Cmd : Type}

/-! ## The entries of a term -/

namespace Rel

variable {σ : Cluster n Cmd} {g : RaftLedger n Cmd}

/-- An entry that stands at its place in the log of its term is the one `Start` put there. -/
theorem command_of_started (h : Rel σ g) {a : Fin n} {i : Nat} {T : Int} {c : Option Cmd}
    (hs : .started a i T c ∈ σ.hist) {e : Entry Cmd} (ht : e.term = T)
    (he : (g.leaderLog e.term)[i - 1]? = some e) : e.command = c := by
  obtain ⟨-, hl⟩ := h.event _ hs
  rw [ht, hl, Option.some_inj] at he
  rw [← he]

/-- The entries of a server's log, the boundary apart, stand at their places. -/
theorem get_mem_leaderLog (h : Rel σ g) {b : Fin n} {i : Nat} {e : Entry Cmd}
    (hlt : (σ.node b).rf.snapIndex < i) (he : (σ.node b).rf.get i = some e) :
    (g.leaderLog e.term)[i - 1]? = some e := by
  rw [(h.node b).server.get_eq hlt] at he
  exact h.inv.log_mem_leaderLog he

/-- And so do those of a request. -/
theorem entries_mem_leaderLog (h : Rel σ g) {call : Call n Cmd} (hc : call ∈ σ.calls) {k : Nat}
    {args : AppendEntriesArgs n Cmd} {reply : Option AppendEntriesReply}
    (hr : call.rpc = .append k args reply) {j : Nat} {e : Entry Cmd}
    (he : args.entries[j]? = some e) :
    (g.leaderLog e.term)[args.prevLogIndex + j]? = some e := by
  have hreq := h.request call hc
  rw [hr] at hreq
  obtain ⟨hj, -⟩ := List.getElem?_eq_some_iff.mp he
  have hl := hreq.entries j hj
  rw [he] at hl
  have hag := h.inv.matching _ _ e hl.symm (args.prevLogIndex + j) (Nat.zero_le _) (by omega)
  exact hag.symm.trans hl.symm

end Rel

namespace Cluster

/-! ## One call for each index and term -/

/-- What the calls of `Start` that were accepted have returned, oldest first. -/
def starts (hist : List (Event n Cmd)) : List (Nat × Int) :=
  hist.filterMap fun
    | .started _ i T _ => some (i, T)
    | _ => none

theorem mem_starts {hist : List (Event n Cmd)} {i : Nat} {T : Int} :
    (i, T) ∈ starts hist ↔ ∃ a c, .started a i T c ∈ hist := by
  rw [starts, List.mem_filterMap]
  constructor
  · rintro ⟨e, he, heq⟩
    cases e with
    | started a i' T' c =>
      obtain ⟨rfl, rfl⟩ : i' = i ∧ T' = T := by simpa using heq
      exact ⟨a, c, he⟩
    | _ => simp at heq
  · rintro ⟨a, c, he⟩
    exact ⟨_, he, rfl⟩

theorem starts_append (hist evs : List (Event n Cmd)) :
    starts (hist ++ evs) = starts hist ++ starts evs :=
  List.filterMap_append

variable {σ σ' : Cluster n Cmd} {act : Action n Cmd} {g : RaftLedger n Cmd}

/-- A leader writes beyond everything its term has written so far. -/
theorem starts_fresh (h : Rel σ g) {a : Fin n} (hs : (σ.node a).rf.state = .leader) :
    ((σ.node a).rf.logLength, (σ.node a).rf.currentTerm) ∉ starts σ.hist := by
  intro hmem
  obtain ⟨b, c, hev⟩ := mem_starts.mp hmem
  obtain ⟨-, hl⟩ := h.event _ hev
  have hlt := (List.getElem?_eq_some_iff.mp hl).1
  have hserver := (h.node a).server
  rw [(hserver.leader hs).log, hserver.logLength] at hlt
  omega

variable [Labgob (Saved n Cmd)]

theorem starts_nodup_step (h : Rel σ g) (ht : Trans σ act σ') (hn : (starts σ.hist).Nodup) :
    (starts σ'.hist).Nodup := by
  obtain ⟨evs, hevs, hall, hone⟩ := ht.hist_cases
  rw [hevs, starts_append]
  by_cases hstart : ∃ a i T c, .started a i T c ∈ evs
  · obtain ⟨a, i, T, c, hmem⟩ := hstart
    have hfresh : (i, T) ∉ starts σ.hist := by
      cases hall _ hmem with
      | started hs => exact starts_fresh h hs
    rw [hone a i T c hmem]
    refine List.nodup_append.mpr ⟨hn, List.nodup_singleton _, fun x hx y hy ↦ ?_⟩
    rw [List.mem_singleton.mp hy]
    rintro rfl
    exact hfresh hx
  · have hnil : starts evs = [] := by
      refine List.eq_nil_iff_forall_not_mem.mpr fun ⟨i, T⟩ hx ↦ hstart ?_
      obtain ⟨a, c, hev⟩ := mem_starts.mp hx
      exact ⟨a, i, T, c, hev⟩
    rw [hnil, List.append_nil]
    exact hn

theorem starts_nodup_of_reach (h : (machine n Cmd).Reach (fun _ _ σ' ↦ σ'.MajorityBacked) σ) :
    (starts σ.hist).Nodup := by
  refine h.invariant (I := fun σ ↦ (starts σ.hist).Nodup) (by simp [machine, init, starts])
    fun σ act σ' hr hn hs _ ↦ ?_
  obtain ⟨g, hg, -⟩ := rel_of_reach (fun _ _ _ hm ↦ hm) hr
  exact starts_nodup_step hg (Trans.of_step hs) hn

/-! ## The promise -/

/-- **`Start` keeps its promise.**  If `Start` returned `(i, T, true)` for the command `c`, then an
entry of term `T` at index `i` has the command `c`: in every server's log and in every log on a
disk, beyond the boundary, where the entries are; and in every `AppendEntries` request.  And no two
calls of `Start` return the same index and term. -/
theorem start_promise (h : (machine n Cmd).Reach (fun _ _ σ' ↦ σ'.MajorityBacked) σ) :
    (∀ a i T c, .started a i T c ∈ σ.hist →
      (∀ b e, (σ.node b).rf.snapIndex < i → (σ.node b).rf.get i = some e → e.term = T →
        e.command = c) ∧
      (∀ b (saved : Saved n Cmd) e, (σ.node b).rf.persister.raftstate ≠ [] →
        Labgob.decode (σ.node b).rf.persister.raftstate = some saved → saved.snapIndex < i →
        saved.log[i - saved.snapIndex]? = some e → e.term = T → e.command = c) ∧
      ∀ call ∈ σ.calls, ∀ k args reply, call.rpc = .append k args reply →
        ∀ j e, args.entries[j]? = some e → args.prevLogIndex + 1 + j = i → e.term = T →
          e.command = c) ∧
    (starts σ.hist).Nodup := by
  obtain ⟨g, hg, -⟩ := rel_of_reach (fun _ _ _ hm ↦ hm) h
  have hlog : ∀ {a i T c}, .started a i T c ∈ σ.hist → ∀ b e, (σ.node b).rf.snapIndex < i →
      (σ.node b).rf.get i = some e → e.term = T → e.command = c :=
    fun hs b e hlt he ht ↦ hg.command_of_started hs ht (hg.get_mem_leaderLog hlt he)
  refine ⟨fun a i T c hs ↦ ⟨hlog hs, fun b saved e hne hdec hlt he ht ↦ ?_, ?_⟩,
    starts_nodup_of_reach h⟩
  · -- the disk has the log of the server
    obtain rfl : (σ.node b).rf.saved = saved := by
      rcases (atRest_of_reach h b).2.onDisk with ⟨hp, -⟩ | ⟨-, hsaved, -⟩
      · exact absurd (congrArg Persister.raftstate hp) hne
      · exact Option.some_inj.mp (hsaved.symm.trans hdec)
    exact hlog hs b e hlt (Raft.get_eq_some.mpr ⟨hlt.le, he⟩) ht
  · rintro call hc k args reply hr j e he rfl ht
    refine hg.command_of_started hs ht ?_
    rw [show args.prevLogIndex + 1 + j - 1 = args.prevLogIndex + j by omega]
    exact hg.entries_mem_leaderLog hc hr he

/-- After the first commit, the command that server `0` started is in the log of server `1`. -/
theorem start_promise_firstCommit :
    ∃ σ : Cluster 3 Nat, (machine 3 Nat).Reach (fun _ _ σ' ↦ σ'.MajorityBacked) σ ∧
      .started 0 1 1 (some 10) ∈ σ.hist ∧ (σ.node 1).rf.snapIndex = 0 ∧
      (∃ e, (σ.node 1).rf.get 1 = some e ∧ e.term = 1) ∧
      ∀ e, (σ.node 1).rf.get 1 = some e → e.term = 1 → e.command = some 10 := by
  obtain ⟨σ, hσ, hs, hsnap, hget⟩ := Machine.exists_reach_of_exec (M := machine 3 Nat)
    (P := fun _ _ σ' ↦ σ'.MajorityBacked)
    (Q := fun σ ↦ .started 0 1 1 (some 10) ∈ σ.hist ∧ (σ.node 1).rf.snapIndex = 0 ∧
      (σ.node 1).rf.get 1 = some ⟨1, some 10⟩)
    firstCommit (by decide +kernel)
  exact ⟨σ, hσ, hs, hsnap, ⟨_, hget, rfl⟩,
    fun e ↦ ((start_promise hσ).1 0 1 1 _ hs).1 1 e (by omega)⟩

end Cluster

end DistLabs
