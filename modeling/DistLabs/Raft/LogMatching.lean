import DistLabs.Raft.Safety

/-!
# Log matching through snapshots

Along a log terms never decrease, and two logs that share an entry agree below it — the boundary of
a snapshot counted as an entry with its stored term.  On the ledger this is `Ledger.Whole`, and it
is kept by everything except one action: an `InstallSnapshot` on a follower that has entries beyond
the snapshot, which keeps them whatever they follow.  `log_matching` is for the runs in which they
do follow an entry of the right term, and `boundary_above_suffix` is a run in which they do not.
-/

set_option autoImplicit false

namespace DistLabs

variable {n : Nat} {Cmd : Type}

open Ledger (endTerm Agree)

/-! ## Reading log matching off the ledger -/

namespace ServerRel

variable {g : RaftLedger n Cmd} {v w : Fin n} {rf rf' : Raft n Cmd}

/-- The terms along a log never decrease. -/
theorem get_mono (h : ServerRel g v rf) (hi : g.Inv) (hw : g.Whole) {i j : Nat} {e e' : Entry Cmd}
    (he : rf.get i = some e) (he' : rf.get j = some e') (hij : i ≤ j) : e.term ≤ e'.term := by
  rcases Nat.eq_or_lt_of_le hij with rfl | hlt
  · rw [he, Option.some_inj] at he'
    rw [he']
  have hsi := (Raft.get_eq_some.mp he).1
  rw [h.get_eq (by omega)] at he'
  have hown := hi.log_mem_leaderLog he'
  have hterm := h.get_term he
  cases i with
  | zero =>
    -- the boundary of a log that was never cut
    have h0 := hi.nonneg _ (hi.winner_of_has ⟨e', hown, rfl⟩)
    rw [List.take_zero, Ledger.endTerm_nil] at hterm
    have : (0 : Int) ≤ e'.term := h0
    omega
  | succ i =>
    obtain ⟨x, hx⟩ : ∃ x, (g.log v)[i]? = some x := by
      have hlen := (List.getElem?_eq_some_iff.mp he').1
      exact ⟨_, List.getElem?_eq_getElem (by omega)⟩
    have hend : endTerm ((g.log v).take (i + 1)) = x.term := by
      have hlen := (List.getElem?_eq_some_iff.mp hx).1
      refine Ledger.endTerm_of_getElem? (k := i) ?_ ?_
      · rw [List.getElem?_take, if_pos (by omega), hx]
      · rw [List.length_take]
        omega
    have hx' := hw v (j - 1) e' he' i (Nat.zero_le _) (by omega)
    rw [hx] at hx'
    rw [hterm, hend]
    exact hi.leaderLog_mono hx'.symm hown (by omega)

/-- Two logs with entries of one term at one index agree up to it. -/
theorem take_eq_of_term (h : ServerRel g v rf) (h' : ServerRel g w rf') (hw : g.Whole) {i : Nat}
    {e e' : Entry Cmd} (hlt : rf.snapIndex < i) (hlt' : rf'.snapIndex < i) (he : rf.get i = some e)
    (he' : rf'.get i = some e') (ht : e.term = e'.term) :
    Agree 0 i (g.log v) (g.log w) := by
  rw [h.get_eq hlt] at he
  rw [h'.get_eq hlt'] at he'
  have h1 := hw v (i - 1) e he
  have h2 := hw w (i - 1) e' he'
  rw [show Stamped.term e = Stamped.term e' from ht] at h1
  rw [Nat.sub_add_cancel (by omega)] at h1 h2
  exact h1.trans h2.symm

end ServerRel

namespace Cluster

variable [Labgob (Saved n Cmd)]

/-- **Log matching.**  In a run whose elections are won by majorities, and in which a server that
takes over a snapshot and keeps entries beyond it has an entry of the right term where they begin:
along each log, boundary included, terms never decrease; and if two logs have entries of the same
term at an index, then at every smaller index that both still have, the terms are the same, and
beyond both boundaries so are the entries. -/
theorem log_matching {σ : Cluster n Cmd}
    (h : (machine n Cmd).Reach (fun σ act σ' ↦ σ'.MajorityBacked ∧ σ.GluesMatching act) σ) :
    (∀ a i j e e', (σ.node a).rf.get i = some e → (σ.node a).rf.get j = some e' → i ≤ j →
      e.term ≤ e'.term) ∧
    ∀ a b i e e', (σ.node a).rf.get i = some e → (σ.node b).rf.get i = some e' →
      e.term = e'.term → ∀ j x y, j < i → (σ.node a).rf.get j = some x →
      (σ.node b).rf.get j = some y → x.term = y.term ∧
        ((σ.node a).rf.snapIndex < j → (σ.node b).rf.snapIndex < j → x = y) := by
  obtain ⟨g, hg, hwhole⟩ := rel_of_reach (fun _ _ _ hp ↦ hp.1) h
  have hw := hwhole fun _ _ _ hp ↦ hp.2
  refine ⟨fun a i j e e' he he' hij ↦ (hg.node a).server.get_mono hg.inv hw he he' hij, ?_⟩
  intro a b i e e' he he' hterm j x y hj hx hy
  have hja := (Raft.get_eq_some.mp hx).1
  have hjb := (Raft.get_eq_some.mp hy).1
  have hag := (hg.node a).server.take_eq_of_term (hg.node b).server hw (by omega) (by omega)
    he he' hterm
  constructor
  · rw [(hg.node a).server.get_term hx, (hg.node b).server.get_term hy,
      (hag.mono le_rfl hj.le).take_eq]
  · intro hsa hsb
    rw [(hg.node a).server.get_eq hsa] at hx
    rw [(hg.node b).server.get_eq hsb, ← hag (j - 1) (Nat.zero_le _) (by omega), hx,
      Option.some_inj] at hy
    exact hy

/-- After the first commit the two logs have the same entry at index `1` and the same boundary. -/
theorem log_matching_firstCommit :
    ∃ σ : Cluster 3 Nat,
      (machine 3 Nat).Reach (fun σ act σ' ↦ σ'.MajorityBacked ∧ σ.GluesMatching act) σ ∧
      (σ.node 0).rf.get 1 = some ⟨1, some 10⟩ ∧ (σ.node 1).rf.get 1 = some ⟨1, some 10⟩ ∧
      ∀ x y, (σ.node 0).rf.get 0 = some x → (σ.node 1).rf.get 0 = some y → x.term = y.term := by
  obtain ⟨σ, hσ, h0, h1⟩ := Machine.exists_reach_of_exec (M := machine 3 Nat)
    (P := fun σ act σ' ↦ σ'.MajorityBacked ∧ σ.GluesMatching act)
    (Q := fun σ ↦ (σ.node 0).rf.get 1 = some ⟨1, some 10⟩ ∧
      (σ.node 1).rf.get 1 = some ⟨1, some 10⟩)
    firstCommit (by decide +kernel)
  exact ⟨σ, hσ, h0, h1, fun x y hx hy ↦
    ((log_matching hσ).2 0 1 1 _ _ h0 h1 rfl 0 x y Nat.one_pos hx hy).1⟩

/-- Server `0` leads term `1` and starts two commands that it does not replicate.  Server `1` is
elected in term `2`, commits another command at index `1` with server `2`, compacts it, and sends
the snapshot to `0`, which is still where it was. -/
def gluedSuffix : List (Action 3 Nat) :=
  firstElection ++ [.start 0 (some 10), .start 0 (some 11), .tick 1, .askVote 1 2, .deliver 1,
    .answer 1, .start 1 (some 20), .replicate 3, .deliver 2, .answer 2, .wake 1, .collect 1,
    .send 1, .snapshot 1 1 [7], .replicate 2, .deliver 3]

/-- **A boundary above its suffix**: the log of server `0` has term `2` at its boundary, index `1`,
and then the entry of term `1` it had at index `2`. -/
theorem boundary_above_suffix :
    ∃ σ : Cluster 3 Nat, (machine 3 Nat).Reach (fun _ _ σ' ↦ σ'.MajorityBacked) σ ∧
      (σ.node 0).rf.snapIndex = 1 ∧ (σ.node 0).rf.get 1 = some ⟨2, none⟩ ∧
      (σ.node 0).rf.get 2 = some ⟨1, some 11⟩ ∧
      ¬ ∀ a i j e e', (σ.node a).rf.get i = some e → (σ.node a).rf.get j = some e' → i ≤ j →
        e.term ≤ e'.term := by
  obtain ⟨σ, hσ, hs, h1, h2⟩ := Machine.exists_reach_of_exec (M := machine 3 Nat)
    (P := fun _ _ σ' ↦ σ'.MajorityBacked)
    (Q := fun σ ↦ (σ.node 0).rf.snapIndex = 1 ∧ (σ.node 0).rf.get 1 = some ⟨2, none⟩ ∧
      (σ.node 0).rf.get 2 = some ⟨1, some 11⟩)
    gluedSuffix (by decide +kernel)
  refine ⟨σ, hσ, hs, h1, h2, fun hmono ↦ ?_⟩
  have := hmono 0 1 2 _ _ h1 h2 (by omega)
  simp at this

end Cluster

end DistLabs
