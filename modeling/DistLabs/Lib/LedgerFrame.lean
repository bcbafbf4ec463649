import DistLabs.Lib.LedgerKept

/-!
# What a move of one server leaves alone, and log matching

Two additions to the moves of the ledger.

`Frame g g' a` says that between `g` and `g'` only server `a` acted: the other servers are as they
were, and so is what the leaders of the terms they won have written and committed.

`Whole g` is the strong form of log matching: every log, *its compacted past included*, is up to
each of its entries the log of that entry's term.  It is not an invariant of the protocol, because
`install` glues the leader's past onto whatever the server had beyond it; every other move keeps
it, and `install` does where the two fit.

`Acts P g g' a` collects what there is to know about server `a` making one or several moves: the
invariant, the growth of the history, the frame, the acknowledgements, and log matching on the
condition `P`.
-/

set_option autoImplicit false

universe u v

namespace Ledger

variable {S : Type u} {E : Type v} [Stamped E]

/-! ## Frames -/

/-- Only `a` has acted. -/
structure Frame (g g' : Ledger S E) (a : S) : Prop where
  /-- The others are as they were. -/
  other : ∀ v, v ≠ a → g'.term v = g.term v ∧ g'.past v = g.past v ∧ g'.tail v = g.tail v
  /-- So is what they wrote and committed as leaders. -/
  lead : ∀ T w, g.winner T = some w → w ≠ a → g'.leaderLog T = g.leaderLog T ∧
    ∀ k, (T, k) ∈ g'.commits → (T, k) ∈ g.commits

namespace Frame

variable {g g' g'' : Ledger S E} {a : S}

theorem trans (h : Frame g g' a) (h' : Frame g' g'' a) (hG : Grows g g') : Frame g g'' a where
  other v hv := by
    obtain ⟨h1, h2, h3⟩ := h.other v hv
    obtain ⟨h1', h2', h3'⟩ := h'.other v hv
    exact ⟨h1'.trans h1, h2'.trans h2, h3'.trans h3⟩
  lead T w hw hwa := by
    obtain ⟨h1, h2⟩ := h.lead T w hw hwa
    obtain ⟨h1', h2'⟩ := h'.lead T w (hG.winner T w hw) hwa
    exact ⟨h1'.trans h1, fun k hk ↦ h2 k (h2' k hk)⟩

theorem elect {T : ℤ} (hw : g.winner T = none) (w : S) : Frame g (g.elect w T) a := by
  refine ⟨fun _ _ ↦ ⟨rfl, rfl, rfl⟩, fun U x hU _ ↦ ⟨?_, fun _ h ↦ h⟩⟩
  refine Function.update_of_ne ?_ ..
  rintro rfl
  rw [hw] at hU
  simp at hU

section Unstamped

omit [Stamped E]

theorem refl (g : Ledger S E) (a : S) : Frame g g a :=
  ⟨fun _ _ ↦ ⟨rfl, rfl, rfl⟩, fun _ _ _ _ ↦ ⟨rfl, fun _ h ↦ h⟩⟩

theorem log (h : Frame g g' a) {v : S} (hv : v ≠ a) : g'.log v = g.log v := by
  obtain ⟨-, h2, h3⟩ := h.other v hv
  rw [Ledger.log, Ledger.log, h2, h3]

theorem castVote (g : Ledger S E) (x : Vote S) (a : S) : Frame g (g.castVote x) a :=
  ⟨fun _ _ ↦ ⟨rfl, rfl, rfl⟩, fun _ _ _ _ ↦ ⟨rfl, fun _ h ↦ h⟩⟩

theorem commit {T : ℤ} (hw : g.winner T = some a) (k : ℕ) : Frame g (g.commit T k) a := by
  refine ⟨fun _ _ ↦ ⟨rfl, rfl, rfl⟩, fun U w hU hwa ↦ ⟨rfl, fun j hj ↦ ?_⟩⟩
  refine (Set.mem_insert_iff.mp hj).resolve_left fun heq ↦ ?_
  obtain ⟨rfl, -⟩ : U = T ∧ j = k := by simpa using heq
  exact hwa (Option.some_inj.mp (hU.symm.trans hw))

variable [DecidableEq S]

theorem bump (g : Ledger S E) (a : S) (T : ℤ) : Frame g (g.bump a T) a :=
  ⟨fun _ hv ↦ ⟨Function.update_of_ne hv .., rfl, rfl⟩, fun _ _ _ _ ↦ ⟨rfl, fun _ h ↦ h⟩⟩

theorem adopt (g : Ledger S E) (a : S) (T : ℤ) (m : ℕ) (tl : List E) :
    Frame g (g.adopt a T m tl) a :=
  ⟨fun _ hv ↦ ⟨rfl, rfl, Function.update_of_ne hv ..⟩, fun _ _ _ _ ↦ ⟨rfl, fun _ h ↦ h⟩⟩

theorem install (g : Ledger S E) (a : S) (T : ℤ) (s : ℕ) : Frame g (g.install a T s) a :=
  ⟨fun _ hv ↦ ⟨rfl, Function.update_of_ne hv .., Function.update_of_ne hv ..⟩,
    fun _ _ _ _ ↦ ⟨rfl, fun _ h ↦ h⟩⟩

theorem compact (g : Ledger S E) (a : S) (s : ℕ) : Frame g (g.compact a s) a :=
  ⟨fun _ hv ↦ ⟨rfl, Function.update_of_ne hv .., Function.update_of_ne hv ..⟩,
    fun _ _ _ _ ↦ ⟨rfl, fun _ h ↦ h⟩⟩

theorem create {T : ℤ} (hw : g.winner T = some a) (e : E) : Frame g (g.create a T e) a := by
  refine ⟨fun _ hv ↦ ⟨rfl, rfl, Function.update_of_ne hv ..⟩, fun U w hU hwa ↦ ⟨?_, fun _ h ↦ h⟩⟩
  refine Function.update_of_ne ?_ ..
  rintro rfl
  exact hwa (Option.some_inj.mp (hU.symm.trans hw))

end Unstamped

end Frame

/-! ## Log matching -/

/-- Every log is, up to each of its entries, the log of that entry's term. -/
def Whole (g : Ledger S E) : Prop :=
  ∀ v k e, (g.log v)[k]? = some e → Agree 0 (k + 1) (g.log v) (g.leaderLog (Stamped.term e))

/-- What server `v` has beyond position `s`, if anything, continues the first `s` entries of the
log of `T`: the entry before `s` has the right term. -/
def Fits (g : Ledger S E) (v : S) (T : ℤ) (s : ℕ) : Prop :=
  (g.log v).length ≤ s ∨
    ∃ e, (g.log v)[s - 1]? = some e ∧ Stamped.term e = endTerm ((g.leaderLog T).take s)

namespace Whole

variable {g g' : Ledger S E}

/-- A log that agrees with a leader's as far as an entry still does when the history has grown. -/
theorem agree_mono (hG : Grows g g') {l : List E} {k : ℕ} {e : E} (he : l[k]? = some e)
    (hag : Agree 0 (k + 1) l (g.leaderLog (Stamped.term e))) :
    Agree 0 (k + 1) l (g'.leaderLog (Stamped.term e)) := by
  have hk := (List.getElem?_eq_some_iff.mp he).1
  have hlen := hag.symm.length_le (show k + 1 ≤ l.length by omega)
  exact hag.trans (hG.agree hlen 0)

/-- A move that changes no log. -/
theorem of_log_eq (h : g.Whole) (hG : Grows g g') (hlog : ∀ v, g'.log v = g.log v) :
    g'.Whole := by
  intro v k e he
  rw [hlog v] at he ⊢
  exact agree_mono hG he (h v k e he)

variable [DecidableEq S] [Fintype S]

theorem create (h : g.Whole) (hi : g.Inv) {w : S} {T : ℤ} {x : E} (hw : g.winner T = some w)
    (ht : g.term w = T) (hl : g.leaderLog T = g.log w) (hx : Stamped.term x = T) :
    (g.create w T x).Whole := by
  have hG := hi.grows (Move.create hw ht hl hx)
  intro v k e he
  by_cases hv : v = w
  swap
  · have hlog : (g.create w T x).log v = g.log v := (Frame.create hw x).log hv
    rw [hlog] at he ⊢
    exact agree_mono hG he (h v k e he)
  subst hv
  have hlog : (g.create v T x).log v = g.log v ++ [x] := create_log_self g
  have hLT : (g.create v T x).leaderLog T = g.log v ++ [x] := by rw [create_leaderLog_self, hl]
  rw [hlog] at he ⊢
  rcases Nat.lt_or_ge k (g.log v).length with hlt | hge
  · rw [List.getElem?_append_left hlt] at he
    exact (Agree.of_append hlt).trans (agree_mono hG he (h v k e he))
  · -- the new entry stands at the end of both logs
    obtain ⟨-, rfl⟩ : k = (g.log v).length ∧ x = e := by
      have hk := (List.getElem?_eq_some_iff.mp he).1
      rw [List.length_append, List.length_singleton] at hk
      obtain rfl : k = (g.log v).length := by omega
      exact ⟨rfl, by simpa using he⟩
    rw [hx, hLT]
    exact fun _ _ _ ↦ rfl

theorem adopt (h : g.Whole) (hi : g.Inv) {v : S} {T : ℤ} {m : ℕ} {tl : List E} (ht : g.term v = T)
    (hw : g.winner T ≠ none) (hm : m ≤ (g.leaderLog T).length) (ha : g.Adopts v T m tl) :
    (g.adopt v T m tl).Whole := by
  have hG := hi.grows (Move.adopt ht hw hm ha)
  intro u j e he
  by_cases hu : u = v
  swap
  · have hlog : (g.adopt v T m tl).log u = g.log u := (Frame.adopt g v T m tl).log hu
    rw [hlog] at he ⊢
    exact agree_mono hG he (h u j e he)
  subst hu
  have hlog : (g.adopt u T m tl).log u = g.past u ++ tl := adopt_log_self g
  change Agree 0 (j + 1) _ (g.leaderLog _)
  rw [hlog] at he ⊢
  rcases ha with ⟨rfl, -⟩ | ⟨k, hsk, hkm, hag, hcut, hnew⟩
  · exact h u j e he
  have hk : k ≤ (g.log u).length := by
    rcases hcut with rfl | ⟨hlt, -⟩
    · exact le_rfl
    · exact hlt.le
  have hget := Inv.adopt_getElem? hk hnew
  rw [hget] at he
  split at he
  · next hjk =>
    intro i hi0 hij
    rw [hget, if_pos (by omega)]
    exact h u j e he i hi0 hij
  · next hjk =>
    split at he
    swap
    · simp at he
    next hjm =>
    -- from the cut on the log is the leader's, and before it that is so anyway
    have hpast := hi.past_agree ht.le hw
    have hall : Agree 0 (j + 1) (g.past u ++ tl) (g.leaderLog T) := by
      intro i _ hij
      rw [hget]
      split
      · next hik =>
        rcases Nat.lt_or_ge i (g.snap u) with hlt | hge
        · exact hpast i (Nat.zero_le _) hlt
        · exact hag i hge hik
      · rw [if_pos (by omega)]
    exact hall.trans (hi.matching T j e he)

theorem install (h : g.Whole) (hi : g.Inv) {v : S} {T : ℤ} {s : ℕ} (ht : g.term v = T)
    (hw : g.winner T ≠ none) (hs : g.snap v < s) (hm : s ≤ (g.leaderLog T).length)
    (hc : g.Sealed T (g.leaderLog T) s) (hfit : g.Fits v T s) : (g.install v T s).Whole := by
  have hG := hi.grows (Move.install ht hw hs hm hc)
  intro u j e he
  by_cases hu : u = v
  swap
  · have hlog : (g.install v T s).log u = g.log u := (Frame.install g v T s).log hu
    rw [hlog] at he ⊢
    exact agree_mono hG he (h u j e he)
  subst hu
  change Agree 0 (j + 1) _ (g.leaderLog _)
  have hget := Inv.install_getElem? hs hm
  rw [hget] at he
  split at he
  · next hjs =>
    intro i hi0 hij
    rw [hget, if_pos (by omega)]
    exact hi.matching T j e he i hi0 hij
  · next hjs =>
    have hold := h u j e he
    have hj := (List.getElem?_eq_some_iff.mp he).1
    -- the kept entries continue the snapshot because the entries before them have the same term
    have hbelow : Agree 0 s (g.leaderLog T) (g.leaderLog (Stamped.term e)) := by
      rcases hfit with hshort | ⟨x, hx, htx⟩
      · omega
      · obtain ⟨y, hy⟩ : ∃ y, (g.leaderLog T)[s - 1]? = some y :=
          ⟨_, List.getElem?_eq_getElem (by omega)⟩
        have hend : endTerm ((g.leaderLog T).take s) = Stamped.term y := by
          refine endTerm_of_getElem? (k := s - 1) ?_ ?_
          · rw [List.getElem?_take, if_pos (by omega), hy]
          · rw [List.length_take]; omega
        have h1 := hi.matching T (s - 1) y hy
        have hxe : (g.leaderLog (Stamped.term e))[s - 1]? = some x :=
          (hold (s - 1) (Nat.zero_le _) (by omega)) ▸ hx
        have h2 := hi.matching _ (s - 1) x hxe
        rw [htx, hend] at h2
        rw [Nat.sub_add_cancel (by omega)] at h1 h2
        exact h1.trans h2.symm
    intro i hi0 hij
    rw [hget]
    split
    · next his => exact hbelow i hi0 his
    · exact hold i hi0 hij

end Whole

/-! ## Moves of one server -/

variable [Fintype S]

/-- Server `a` has moved from `g` to `g'`; if `P` holds, log matching is kept. -/
structure Acts (P : Prop) (g g' : Ledger S E) (a : S) : Prop where
  /-- The invariant holds. -/
  inv : g'.Inv
  /-- The history has grown. -/
  grows : Grows g g'
  /-- Nobody else has moved. -/
  frame : Frame g g' a
  /-- What was acknowledged is kept. -/
  kept : g.Kept → g'.Kept
  /-- Log matching is kept. -/
  whole : P → g.Whole → g'.Whole

namespace Acts

variable {P : Prop} {g g' g'' : Ledger S E} {a : S}

theorem refl (hi : g.Inv) (a : S) : Acts P g g a :=
  ⟨hi, Grows.refl g, Frame.refl g a, id, fun _ h ↦ h⟩

theorem trans (h : Acts P g g' a) (h' : Acts P g' g'' a) : Acts P g g'' a :=
  ⟨h'.inv, h.grows.trans h'.grows, h.frame.trans h'.frame h.grows, fun hk ↦ h'.kept (h.kept hk),
    fun hp hw ↦ h'.whole hp (h.whole hp hw)⟩

variable [DecidableEq S]

/-- A move that leaves every log as it is. -/
theorem of_move (hi : g.Inv) (hm : Move g g') (hF : Frame g g' a)
    (hlog : ∀ v, g'.log v = g.log v) : Acts P g g' a :=
  ⟨hi.step hm, hi.grows hm, hF, fun h ↦ h.step hi hm, fun _ h ↦ h.of_log_eq (hi.grows hm) hlog⟩

theorem bump (hi : g.Inv) {T : ℤ} (h : g.term a ≤ T) : Acts P g (g.bump a T) a :=
  of_move hi (.bump h) (.bump g a T) fun _ ↦ rfl

theorem castVote (hi : g.Inv) {x : Vote S} (ht : g.term x.voter = x.term)
    (hw : g.winner x.term = none)
    (hu : UpToDate x.lastTerm x.lastIndex (endTerm (g.log x.voter)) (g.log x.voter).length) :
    Acts P g (g.castVote x) a :=
  of_move hi (.castVote ht hw hu) (.castVote g x a) fun _ ↦ rfl

theorem elect (hi : g.Inv) {T : ℤ} {Q : Finset S} (ht : g.term a = T) (hw : g.winner T = none)
    (h0 : 0 ≤ T) (hQ : Majority Q)
    (hv : ∀ v ∈ Q, v = a ∨ ⟨v, a, T, endTerm (g.log a), (g.log a).length⟩ ∈ g.votes) :
    Acts P g (g.elect a T) a :=
  of_move hi (.elect ht hw h0 hQ hv) (.elect hw a) fun _ ↦ rfl

theorem commit (hi : g.Inv) {T : ℤ} {k : ℕ} {Q : Finset S} (hwin : g.winner T = some a)
    (hT : g.Has T T k) (hnew : ∀ k', k ≤ k' → (T, k') ∉ g.commits) (hQ : Majority Q)
    (hv : ∀ v ∈ Q, g.winner T = some v ∨ ∃ m, k < m ∧ (v, T, m) ∈ g.acks) :
    Acts P g (g.commit T k) a :=
  of_move hi (.commit hT hnew hQ hv) (.commit hwin k) fun _ ↦ rfl

theorem compact (hi : g.Inv) {s : ℕ} (hs : g.snap a < s) (hm : s ≤ (g.log a).length)
    (hc : g.Sealed (g.term a) (g.log a) s) : Acts P g (g.compact a s) a :=
  of_move hi (.compact hs hm hc) (.compact g a s) fun _ ↦ compact_log g hs

theorem create (hi : g.Inv) {T : ℤ} {e : E} (hw : g.winner T = some a) (ht : g.term a = T)
    (hl : g.leaderLog T = g.log a) (he : Stamped.term e = T) : Acts P g (g.create a T e) a :=
  ⟨hi.create hw ht hl he, hi.grows (.create hw ht hl he), .create hw e,
    fun h ↦ h.create hi hw ht hl he, fun _ h ↦ h.create hi hw ht hl he⟩

theorem adopt (hi : g.Inv) {T : ℤ} {m : ℕ} {tl : List E} (ht : g.term a = T)
    (hw : g.winner T ≠ none) (hm : m ≤ (g.leaderLog T).length) (ha : g.Adopts a T m tl) :
    Acts P g (g.adopt a T m tl) a :=
  ⟨hi.adopt ht hw hm ha, hi.grows (.adopt ht hw hm ha), .adopt g a T m tl,
    fun h ↦ h.adopt hi ht hw hm ha, fun _ h ↦ h.adopt hi ht hw hm ha⟩

theorem install (hi : g.Inv) {T : ℤ} {s : ℕ} (ht : g.term a = T) (hw : g.winner T ≠ none)
    (hs : g.snap a < s) (hm : s ≤ (g.leaderLog T).length) (hc : g.Sealed T (g.leaderLog T) s)
    (hfit : P → g.Fits a T s) : Acts P g (g.install a T s) a :=
  ⟨hi.install ht hw hs hm hc, hi.grows (.install ht hw hs hm hc), .install g a T s,
    fun h ↦ h.install hi ht hw hs hm hc, fun hp h ↦ h.install hi ht hw hs hm hc (hfit hp)⟩

end Acts

end Ledger
