import DistLabs.Raft.AppendEffect

/-!
# A follower's whole log and its leader's

A server's own log begins behind its snapshot.  `HasLog rf es` gives it a whole log `es`, from index
`1` on, and what replication does is best said of whole logs: `F` of the follower and `L` of the
leader.

Log Matching (`Matching F L`) has one consequence that everything here rests on.  `F` and `L` are
equal through some index `commonTerms F L`, and beyond it no two entries at the same index have the
same term. So a request for the leader's entries through index `m` finds its first difference right
behind `commonTerms F L`, wherever it begins: it leaves `F` alone, if it does not reach that far,
and replaces it by `L.take m` otherwise.  That is `extend F L m`, and `Took.hasLog` says that it is
what a follower does.
-/

set_option autoImplicit false

namespace DistLabs

variable {n : Nat} {Cmd : Type} {F L : List (Entry Cmd)}

/-! ## Where two logs part -/

/-- How many entries at the beginning of two logs have the same terms. -/
def commonTerms : List (Entry Cmd) → List (Entry Cmd) → Nat
  | x :: F, y :: L => if x.term = y.term then commonTerms F L + 1 else 0
  | _, _ => 0

theorem commonTerms_sameTerms (F L : List (Entry Cmd)) : SameTerms (commonTerms F L) F L := by
  induction F generalizing L with
  | nil => intro k hk; simp [commonTerms] at hk
  | cons x F ih =>
    cases L with
    | nil => intro k hk; simp [commonTerms] at hk
    | cons y L =>
      intro k hk
      rw [commonTerms] at hk
      split at hk
      swap
      · omega
      next hxy =>
      cases k with
      | zero => exact ⟨x, y, rfl, rfl, hxy⟩
      | succ k => exact ih L k (by omega)

theorem le_commonTerms {k : Nat} (h : SameTerms k F L) : k ≤ commonTerms F L := by
  induction F generalizing L k with
  | nil =>
    rcases Nat.eq_zero_or_pos k with rfl | hk
    · exact Nat.zero_le _
    · obtain ⟨e, -, he, -⟩ := h 0 hk
      simp at he
  | cons x F ih =>
    rcases Nat.eq_zero_or_pos k with rfl | hk
    · exact Nat.zero_le _
    cases L with
    | nil =>
      obtain ⟨-, e, -, he, -⟩ := h 0 hk
      simp at he
    | cons y L =>
      have hxy : x.term = y.term := h.term_eq hk rfl rfl
      have := ih (L := L) (k := k - 1) fun j hj ↦ h (j + 1) (by omega)
      rw [commonTerms, if_pos hxy]
      omega

theorem commonTerms_drop {s : Nat} (h : s ≤ commonTerms F L) :
    commonTerms (F.drop s) (L.drop s) = commonTerms F L - s := by
  induction s generalizing F L with
  | zero => rfl
  | succ s ih =>
    cases F with
    | nil => simp [commonTerms] at h
    | cons x F =>
      cases L with
      | nil => simp [commonTerms] at h
      | cons y L =>
        rw [commonTerms] at h ⊢
        split at h
        swap
        · omega
        next hxy =>
        rw [List.drop_succ_cons, List.drop_succ_cons, ih (by omega), if_pos hxy]
        omega

theorem commonTerms_take (F L : List (Entry Cmd)) (m : Nat) :
    commonTerms F (L.take m) = min (commonTerms F L) m := by
  induction F generalizing L m with
  | nil => simp [commonTerms]
  | cons x F ih =>
    cases L with
    | nil => simp [commonTerms]
    | cons y L =>
      cases m with
      | zero => simp [commonTerms]
      | succ m =>
        rw [List.take_succ_cons, commonTerms, commonTerms, ih]
        split <;> omega

/-- **Reconciling**, said with the place where the lists part. -/
theorem reconcile_eq (mine yours : List (Entry Cmd)) : reconcile mine yours =
    if yours.length ≤ commonTerms mine yours then mine
    else mine.take (commonTerms mine yours) ++ yours.drop (commonTerms mine yours) := by
  induction mine generalizing yours with
  | nil => cases yours <;> simp [reconcile, commonTerms]
  | cons m mine ih =>
    cases yours with
    | nil => simp
    | cons y yours =>
      rw [reconcile, commonTerms]
      split
      · rw [ih yours, List.length_cons, List.take_succ_cons, List.drop_succ_cons]
        split <;> split <;> first | rfl | omega
      · simp

/-! ## Log Matching -/

/-- **Log Matching**: where the terms are the same, the logs are equal through that index. -/
def Matching (F L : List (Entry Cmd)) : Prop :=
  ∀ (i : Nat) (e e' : Entry Cmd), F[i]? = some e → L[i]? = some e' → e.term = e'.term →
    ∀ j ≤ i, F[j]? = L[j]?

/-- Through the last index where the terms are the same, matching logs are equal. -/
theorem Matching.getElem? (h : Matching F L) {i : Nat} (hi : i < commonTerms F L) :
    F[i]? = L[i]? := by
  obtain ⟨e, e', he, he', hterm⟩ := commonTerms_sameTerms F L i hi
  exact h i e e' he he' hterm i (Nat.le_refl i)

theorem Matching.take_eq (h : Matching F L) {k : Nat} (hk : k ≤ commonTerms F L) :
    F.take k = L.take k := by
  refine List.ext_getElem? fun i ↦ ?_
  rw [List.getElem?_take, List.getElem?_take]
  split
  · exact h.getElem? (by omega)
  · rfl

/-- Logs that are equal through an index have the same terms there. -/
theorem sameTerms_of_getElem? {k : Nat} (hk : k ≤ F.length) (h : ∀ i < k, F[i]? = L[i]?) :
    SameTerms k F L := by
  intro i hi
  have hF := List.getElem?_eq_getElem (l := F) (i := i) (by omega)
  exact ⟨_, _, hF, (h i hi).symm.trans hF, rfl⟩

/-- An index with the same term on both sides lies before the place where matching logs part. -/
theorem Matching.lt_commonTerms (h : Matching F L) {i : Nat} {e e' : Entry Cmd}
    (he : F[i]? = some e)
    (he' : L[i]? = some e') (hterm : e.term = e'.term) : i < commonTerms F L := by
  have hi := (List.getElem?_eq_some_iff.mp he).1
  have heq := h i e e' he he' hterm
  exact le_commonTerms (sameTerms_of_getElem? (k := i + 1) hi fun j hj ↦ heq j (by omega))

/-! ## What a request makes of a log -/

/-- The log `F` after a request with the entries of `L` through index `m`. -/
def extend (F L : List (Entry Cmd)) (m : Nat) : List (Entry Cmd) :=
  if m ≤ commonTerms F L then F else L.take m

/-- Through the place where they part, nothing changes. -/
theorem extend_getElem? (h : Matching F L) {i m : Nat} (hi : i < commonTerms F L) :
    (extend F L m)[i]? = F[i]? := by
  rw [extend]
  split
  · rfl
  · rw [List.getElem?_take_of_lt (by omega), h.getElem? hi]

/-- A request for all of `L` brings all of `L`. -/
theorem extend_length_getElem? (h : Matching F L) {i : Nat} (hi : i < L.length) :
    (extend F L L.length)[i]? = L[i]? := by
  rw [extend]
  split
  · exact h.getElem? (by omega)
  · rw [List.take_length]

theorem commonTerms_self (L : List (Entry Cmd)) : commonTerms L L = L.length := by
  induction L with
  | nil => rfl
  | cons x L ih => rw [commonTerms, if_pos rfl, ih, List.length_cons]

theorem commonTerms_comm (F L : List (Entry Cmd)) : commonTerms F L = commonTerms L F := by
  induction F generalizing L with
  | nil => cases L <;> rfl
  | cons x F ih =>
    cases L with
    | nil => rfl
    | cons y L => simp only [commonTerms, ih L, eq_comm]

theorem commonTerms_take_self {m : Nat} (hm : m ≤ L.length) : commonTerms (L.take m) L = m := by
  rw [commonTerms_comm, commonTerms_take, commonTerms_self]
  omega

/-- **One request after another** does what the longer one does. -/
theorem extend_extend {m m' : Nat} (hm : m ≤ L.length) :
    extend (extend F L m) L m' = extend F L (max m m') := by
  rw [extend.eq_def F L m]
  split
  · rw [extend, extend]
    split <;> split <;> first | rfl | omega | (congr 1; omega)
  · rw [extend, commonTerms_take_self hm, extend,
      if_neg (show ¬ max m m' ≤ commonTerms F L by omega)]
    split <;> (congr 1; omega)

theorem matching_extend (h : Matching F L) (m : Nat) : Matching (extend F L m) L := by
  rw [extend]
  split
  · exact h
  · intro i e e' he _ _ j hj
    rw [List.getElem?_take] at he ⊢
    split at he
    · rw [if_pos (by omega)]
    · simp at he

/-- Reconciling what both have behind an index `s` before they part is `extend`. -/
theorem reconcile_drop (h : Matching F L) {s m : Nat} (hs : s ≤ commonTerms F L)
    (hm : m ≤ L.length) :
    reconcile (F.drop s) ((L.take m).drop s) = (extend F L m).drop s := by
  rcases Nat.lt_or_ge s m with hlt | hge
  swap
  · have hnil : (L.take m).drop s = [] := List.drop_eq_nil_of_le (by rw [List.length_take]; omega)
    rw [hnil, reconcile_nil, extend, if_pos (by omega)]
  have hcommon : commonTerms (F.drop s) ((L.take m).drop s) = min (commonTerms F L) m - s := by
    rw [commonTerms_drop (by rw [commonTerms_take]; omega), commonTerms_take]
  have hlen : ((L.take m).drop s).length = m - s := by
    rw [List.length_drop, List.length_take]
    omega
  rw [reconcile_eq, hcommon, hlen, extend]
  split
  · rw [if_pos (by omega)]
  · next hgt =>
    -- what is kept of `F` is what `L` has there
    have hkept : (F.drop s).take (min (commonTerms F L) m - s) =
        ((L.take m).drop s).take (min (commonTerms F L) m - s) := by
      rw [← List.drop_take, ← List.drop_take, List.take_take, h.take_eq (by omega)]
      congr 2
      omega
    rw [if_neg (by omega), hkept, List.take_append_drop]

namespace Raft

/-! ## Followers -/

variable {rf rf' : Raft n Cmd} {es : List (Entry Cmd)} {args : AppendEntriesArgs n Cmd}

namespace HasLog

theorem snapIndex_le (h : rf.HasLog es) (hlog : rf.log ≠ []) : rf.snapIndex ≤ es.length := by
  rcases Nat.eq_zero_or_pos rf.snapIndex with h0 | hpos
  · omega
  · obtain ⟨b, hb⟩ := exists_get rf (Nat.le_refl _) (snapIndex_lt_logLength hlog)
    obtain ⟨e, he, -⟩ := h.boundary hpos b hb
    have := (List.getElem?_eq_some_iff.mp he).1
    omega

/-- The log is the whole log from the snapshot on, behind the boundary. -/
theorem log_eq (h : rf.HasLog es) {b : Entry Cmd} (hb : rf.get rf.snapIndex = some b) :
    rf.log = b :: es.drop rf.snapIndex := by
  refine List.ext_getElem? fun j ↦ ?_
  cases j with
  | zero =>
    obtain ⟨-, hget⟩ := get_eq_some.mp hb
    rwa [Nat.sub_self] at hget
  | succ j =>
    have hget := h.get (rf.snapIndex + (j + 1)) (by omega)
    rw [Raft.get, if_neg (by omega), Nat.add_sub_cancel_left] at hget
    rw [hget, List.getElem?_cons_succ, List.getElem?_drop]
    rfl

theorem logLength_eq (h : rf.HasLog es) (hlog : rf.log ≠ []) : rf.logLength = es.length + 1 := by
  obtain ⟨b, hb⟩ := exists_get rf (Nat.le_refl _) (snapIndex_lt_logLength hlog)
  have hle := h.snapIndex_le hlog
  rw [logLength, h.log_eq hb, List.length_cons, List.length_drop]
  omega

end HasLog

/-- **A piece of the leader's log**: what a request says of the leader's whole log. -/
structure Piece (L : List (Entry Cmd)) (args : AppendEntriesArgs n Cmd) : Prop where
  /-- It lies within the log. -/
  length : args.prevLogIndex + args.entries.length ≤ L.length
  /-- The entries are what the log has there. -/
  entries : ∀ j < args.entries.length, args.entries[j]? = L[args.prevLogIndex + j]?
  /-- The term before them. -/
  prev : 0 < args.prevLogIndex → ∃ e, L[args.prevLogIndex - 1]? = some e ∧ args.prevLogTerm = e.term

section Took

variable [Labgob (Saved n Cmd)]

/-- A request is taken before the follower's log and the leader's part. -/
theorem Took.seam_le (h : rf.Took args rf') (hlog : rf.log ≠ []) (hF : rf.HasLog F)
    (hm : Matching F L) (hag : ∀ i < rf.snapIndex, F[i]? = L[i]?) (hp : Piece L args) :
    rf.seam args ≤ commonTerms F L := by
  have hsnap : rf.snapIndex ≤ commonTerms F L :=
    le_commonTerms (sameTerms_of_getElem? (hF.snapIndex_le hlog) hag)
  rw [seam]
  rcases Nat.lt_or_ge rf.snapIndex args.prevLogIndex with hlt | hle
  swap
  · omega
  obtain ⟨prev, hget, hterm⟩ := h.prev.resolve_left (by omega)
  obtain ⟨e, he, hpt⟩ := hp.prev (by omega)
  rw [hF.get _ hlt] at hget
  have := hm.lt_commonTerms hget he (hterm.trans hpt)
  omega

/-- **What a follower makes of its leader's request.** -/
theorem Took.hasLog (h : rf.Took args rf') (hlog : rf.log ≠ []) (hF : rf.HasLog F)
    (hm : Matching F L) (hag : ∀ i < rf.snapIndex, F[i]? = L[i]?) (hp : Piece L args) :
    rf'.HasLog (extend F L (args.prevLogIndex + args.entries.length)) := by
  have hseam := h.seam_le hlog hF hm hag hp
  have hsnap : rf.snapIndex ≤ rf.seam args := Nat.le_max_right ..
  constructor
  · intro i hi
    rw [h.snapIndex] at hi
    rcases Nat.lt_or_ge (rf.seam args) i with hgt | hle
    swap
    · rw [h.get_le hlog hle, hF.get i hi, extend_getElem? hm (by omega)]
    obtain ⟨j, rfl⟩ : ∃ j, i = rf.seam args + 1 + j := ⟨i - (rf.seam args + 1), by omega⟩
    have hmine : rf.mine args = F.drop (rf.seam args) := by
      refine List.ext_getElem? fun j ↦ ?_
      rw [mine_getElem?, hF.get _ (by omega), List.getElem?_drop]
      congr 1
      omega
    have hyours : rf.yours args =
        (L.take (args.prevLogIndex + args.entries.length)).drop (rf.seam args) := by
      refine List.ext_getElem? fun j ↦ ?_
      have hprev : args.prevLogIndex ≤ rf.seam args := Nat.le_max_left ..
      rw [yours_getElem?, List.getElem?_drop, List.getElem?_take]
      split
      · rw [hp.entries _ (by omega)]
        congr 1
        omega
      · exact List.getElem?_eq_none (by omega)
    rw [h.get_gt hlog, hmine, hyours, reconcile_drop hm hseam hp.length, List.getElem?_drop]
    congr 1
    omega
  · intro hpos b hb
    rw [h.snapIndex] at hpos hb ⊢
    rw [h.get_le hlog hsnap] at hb
    rw [extend_getElem? hm (by omega)]
    exact hF.boundary hpos b hb

end Took

/-! ## Leaders -/

/-- **A request is a piece of its leader's log**, from `prevLogIndex` to the end. -/
theorem piece_of_singleAppend {ld : Raft n Cmd} {i : Fin n} {m : Nat} (hL : ld.HasLog (L.take m))
    (hm : m ≤ L.length) (hsend : ld.singleAppend i = some (some (.append args))) :
    Piece L args ∧ args.prevLogIndex + args.entries.length = m ∧
      args.leaderCommit = ld.commitIndex := by
  obtain ⟨-, -, -, ⟨prev, hprev, hterm⟩, hentries, hcommit⟩ := singleAppend_append hsend
  obtain ⟨hle, hget⟩ := get_eq_some.mp hprev
  have hlog : ld.log ≠ [] := fun hnil ↦ by simp [hnil] at hget
  have hlen := hL.logLength_eq hlog
  have hlt := get_lt_logLength hprev
  have hmlen : (L.take m).length = m := List.length_take_of_le hm
  have hend : args.prevLogIndex + args.entries.length = m := by
    rw [logLength] at hlen hlt
    rw [hentries, List.length_drop]
    omega
  refine ⟨⟨by omega, fun j hj ↦ ?_, fun hpos ↦ ?_⟩, hend, hcommit⟩
  · have hj' := hL.get (args.prevLogIndex + 1 + j) (by omega)
    rw [get, if_neg (by omega), List.getElem?_take_of_lt (by omega)] at hj'
    rw [show args.prevLogIndex + j = args.prevLogIndex + 1 + j - 1 by omega, ← hj', hentries,
      List.getElem?_drop]
    congr 1
    omega
  · have hprevL : ∃ e, (L.take m)[args.prevLogIndex - 1]? = some e ∧ prev.term = e.term := by
      rcases Nat.eq_or_lt_of_le hle with heq | hgt
      · rw [← heq] at hprev hpos ⊢
        exact hL.boundary hpos prev hprev
      · exact ⟨prev, (hL.get _ hgt).symm.trans hprev, rfl⟩
    obtain ⟨e, he, hpe⟩ := hprevL
    rw [List.getElem?_take_of_lt (by omega)] at he
    exact ⟨e, he, hterm.trans hpe⟩

end Raft

end DistLabs
