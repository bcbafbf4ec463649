import DistLabs.Raft.Origins
import DistLabs.Raft.Starts

/-!
# The committed log

What a service sees of Raft is one log: a list of entries that grows at its end, of which every
server is handed a piece.  The cluster has no such list anywhere.  It is in the record, though: the
entries at which leaders have moved their commit indexes, and those below them, are the entries of
one list (`Rel.exists_commitLog`), which later records extend (`IsCommitLog.grows`).

Nothing gets into this log by itself: each of its entries was passed to `Start`, in a call that
returned its index and its term.  Nor does a call get in twice, because no two calls return the same
(`delivered_once`).
-/

set_option autoImplicit false

namespace DistLabs

variable {n : Nat} {Cmd : Type}

namespace Cluster

/-! ## The log -/

/-- `L` is the list of the committed entries. -/
def IsCommitLog (hist : List (Event n Cmd)) (L : List (Entry Cmd)) : Prop :=
  ∀ i e, L[i]? = some e ↔ CommittedAt hist (i + 1) e

/-- Later records have the same committed entries, and maybe more of them. -/
theorem IsCommitLog.grows {hist hist' : List (Event n Cmd)} {L L' : List (Entry Cmd)}
    (h : IsCommitLog hist L) (h' : IsCommitLog hist' L') (hsub : hist ⊆ hist') : L <+: L' := by
  rw [List.prefix_iff_getElem?]
  intro i hi
  exact (h' i _).mpr (((h i _).mp (List.getElem?_eq_getElem hi)).mono hsub)

/-- **There is a committed log.**  Commits are on record, so one of them goes furthest, and the log
of its term has all that is committed. -/
theorem Rel.exists_commitLog {σ : Cluster n Cmd} {g : RaftLedger n Cmd} (h : Rel σ g)
    (hs : σ.SnapInv) : ∃ L, IsCommitLog σ.hist L := by
  classical
  suffices hL : ∃ L : List (Entry Cmd), ∀ i e, L[i]? = some e ↔ Committed g (i + 1) e by
    obtain ⟨L, hL⟩ := hL
    exact ⟨L, fun i e ↦ (hL i e).trans (committedAt_iff h hs).symm⟩
  by_cases hnone : ∃ T k, (T, k) ∈ g.commits
  swap
  · refine ⟨[], fun i e ↦ ?_⟩
    simp only [List.getElem?_nil, reduceCtorEq, false_iff]
    rintro ⟨U, k, hc, -⟩
    exact hnone ⟨U, k, hc⟩
  · -- no commit goes beyond the highest commit index on record
    have hbound : ∃ B, ∀ k, (∃ T, (T, k) ∈ g.commits) → k ≤ B := by
      obtain ⟨B, hB⟩ :=
        ((List.finRange n).flatMap (commitments · σ.hist)).exists_bound (·.commitIndex)
      refine ⟨B, ?_⟩
      rintro k ⟨T, hc⟩
      obtain ⟨a, rf, hev, -, hk⟩ := h.recorded T k hc
      have := hB rf (List.mem_flatMap.mpr ⟨a, List.mem_finRange a, mem_commitments.mpr hev⟩)
      omega
    obtain ⟨B, hB⟩ := hbound
    obtain ⟨T₀, k₀, hc₀⟩ := hnone
    set k := Nat.findGreatest (fun k ↦ ∃ T, (T, k) ∈ g.commits) B with hk
    obtain ⟨T, hc⟩ : ∃ T, (T, k) ∈ g.commits :=
      Nat.findGreatest_spec (P := fun k ↦ ∃ T, (T, k) ∈ g.commits) (hB k₀ ⟨T₀, hc₀⟩) ⟨T₀, hc₀⟩
    refine ⟨(g.leaderLog T).take (k + 1), fun i e ↦ ?_⟩
    rw [List.getElem?_take]
    constructor
    · intro he
      split at he
      · next hlt => exact ⟨T, k, hc, by omega, by omega, by simpa using he⟩
      · simp at he
    · rintro ⟨U, k', hc', -, hle, he⟩
      have hle' : k' ≤ k := Nat.le_findGreatest (hB k' ⟨U, hc'⟩) ⟨U, hc'⟩
      rw [if_pos (by omega), h.inv.commit_agree hc hc' (i := i) (by omega) (by omega)]
      simpa using he

/-! ## Nothing is made up -/

/-- The entries a snapshot was taken from were started. -/
theorem started_of_takenFrom {σ : Cluster n Cmd} (h : σ.OriginInv) {s i : Nat} {data : Bytes}
    {e : Entry Cmd} (ht : TakenFrom σ.hist s data i e) : Started σ.hist i e := by
  induction ht with
  | held hcut hlt hle he => exact h.event _ hcut _ _ hlt he
  | older _ _ ih => exact ih

/-- **What is committed was started.** -/
theorem started_of_committedAt {σ : Cluster n Cmd} (h : σ.OriginInv) {i : Nat} {e : Entry Cmd}
    (hc : CommittedAt σ.hist i e) : Started σ.hist i e := by
  obtain ⟨a, rf, hev, -, -, ⟨hlt, he⟩ | ⟨-, ht⟩⟩ := hc
  · exact h.event _ hev _ _ hlt he
  · exact started_of_takenFrom h ht

/-- A message that is on its way to a service is about an entry that was started. -/
theorem started_of_msg {σ : Cluster n Cmd} {g : RaftLedger n Cmd} (h : Rel σ g) (hs : σ.SnapInv)
    (ho : σ.OriginInv) {a : Fin n} {i : Nat} {c : Option Cmd} {T : Int}
    (hm : .command i c T ∈ (σ.node a).batch ∨ .command i c T ∈ (σ.node a).snapSends) :
    Started σ.hist i ⟨T, c⟩ := by
  have hmem := List.mem_append_right (σ.node a).received (List.mem_append.mpr hm)
  exact started_of_committedAt ho ((committedAt_iff h hs).mpr ((h.node a).msgs _ hmem).1)

variable [Labgob (Saved n Cmd)] {σ σ' : Cluster n Cmd} {act : Action n Cmd}

/-- A delivery stands on record after the `Start` it goes back to. -/
theorem started_before_step {g : RaftLedger n Cmd} (h : Rel σ g) (hs : σ.SnapInv)
    (ho : σ.OriginInv) (ht : Trans σ act σ')
    (hi : ∀ pre a i c T post, σ.hist = pre ++ .received a (.command i c T) :: post →
      Started pre i ⟨T, c⟩) :
    ∀ pre a i c T post, σ'.hist = pre ++ .received a (.command i c T) :: post →
      Started pre i ⟨T, c⟩ := by
  intro pre a i c T post heq
  obtain ⟨evs, hevs, hall, -⟩ := ht.hist_cases
  rw [hevs] at heq
  rcases List.append_eq_append_iff.mp heq with ⟨mid, rfl, hmid⟩ | ⟨mid, hpre, hmid⟩
  · -- the delivery happens now, so the entry was started by then
    have hnew : .received a (.command i c T) ∈ evs := by simp [hmid]
    cases hall _ hnew with
    | received hm =>
      obtain ⟨b, hb⟩ := started_of_msg h hs ho hm
      exact ⟨b, List.mem_append_left _ hb⟩
  · cases mid with
    | nil =>
      have hnew : .received a (.command i c T) ∈ evs := by
        rw [List.nil_append] at hmid
        simp [← hmid]
      cases hall _ hnew with
      | received hm =>
        rw [List.append_nil] at hpre
        exact hpre ▸ started_of_msg h hs ho hm
    | cons x mid =>
      obtain ⟨rfl, -⟩ := List.cons.inj hmid
      exact hi pre a i c T mid hpre

theorem started_before_of_reach (h : (machine n Cmd).Reach (fun _ _ σ' ↦ σ'.MajorityBacked) σ) :
    ∀ pre a i c T post, σ.hist = pre ++ .received a (.command i c T) :: post →
      Started pre i ⟨T, c⟩ := by
  refine h.invariant (I := fun σ ↦ ∀ pre a i c T post,
    σ.hist = pre ++ .received a (.command i c T) :: post → Started pre i ⟨T, c⟩)
    (by simp [machine, init]) fun σ act σ' hr hi hs _ ↦ ?_
  obtain ⟨g, hg, -⟩ := rel_of_reach (fun _ _ _ hm ↦ hm) hr
  exact started_before_step hg (snapInv_of_reach hr) (originInv_of_reach hr) (Trans.of_step hs) hi

/-- **Every delivery goes back to one call of `Start`.**  In a run whose elections are won by
majorities, no two calls of `Start` are told the same index and term; and a command that is
delivered at index `i` was passed to `Start` before, in the one call that returned `i` and the term
of the entry. -/
theorem delivered_once (h : (machine n Cmd).Reach (fun _ _ σ' ↦ n ≤ 3 ∨ σ'.MajorityBacked) σ) :
    (starts σ.hist).Nodup ∧ ∀ pre a i c T post,
      σ.hist = pre ++ .received a (.command i c T) :: post →
        (∃ b, .started b i T c ∈ pre) ∧ (starts pre).count (i, T) = 1 := by
  have hr := reach_majorityBacked h
  have hnodup := starts_nodup_of_reach hr
  refine ⟨hnodup, fun pre a i c T post hist ↦ ?_⟩
  obtain ⟨b, hb⟩ := started_before_of_reach hr pre a i c T post hist
  rw [hist, starts_append] at hnodup
  exact ⟨⟨b, hb⟩, List.count_eq_one_of_mem (List.nodup_append.mp hnodup).1
    (mem_starts.mpr ⟨b, c, hb⟩)⟩

theorem delivered_once_firstCommit :
    ∃ σ : Cluster 3 Nat,
      (machine 3 Nat).Reach (fun _ _ σ' ↦ 3 ≤ 3 ∨ σ'.MajorityBacked) σ ∧ (starts σ.hist).Nodup ∧
      ∃ pre post, σ.hist = pre ++ .received 1 (.command 1 (some 10) 1) :: post ∧
        (∃ b, .started b 1 1 (some 10) ∈ pre) ∧ (starts pre).count (1, 1) = 1 := by
  obtain ⟨σ, hσ, hmem⟩ := Machine.exists_reach_of_exec (M := machine 3 Nat)
    (P := fun _ _ σ' ↦ 3 ≤ 3 ∨ σ'.MajorityBacked)
    (Q := fun σ ↦ .received 1 (.command 1 (some 10) 1) ∈ σ.hist)
    (firstCommit ++ [.wake 1, .collect 1, .send 1]) (by decide +kernel)
  obtain ⟨pre, post, hist⟩ := List.append_of_mem hmem
  obtain ⟨hnodup, honce⟩ := delivered_once hσ
  exact ⟨σ, hσ, hnodup, pre, post, hist, honce _ _ _ _ _ _ hist⟩

end Cluster

end DistLabs
