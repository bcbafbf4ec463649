import DistLabs.Lib.Ledger

/-!
# The moves of the ledger protocol

The eight things that can happen to a `Ledger`, and the proof that each of them preserves `Inv`
(`Inv.step`) and whatever a server knows to be committed (`Inv.sealed_step`).

The delicate moves are the two that rewrite a log.  `adopt` is a follower taking entries from the
leader of its term: it cuts its log at the first position that differs, if there is one, and
copies the leader's log from there.  `install` is a follower taking a committed prefix and keeping
its own tail beyond it, unchecked.  In both a server that stood for `(T, k)` still does: if no
leader it has heard lacks the entry, its tail agreed with the log of `T` as far as `k`
(`Inv.ahead_spec`), so nothing below `k` was cut.
-/

set_option autoImplicit false

universe u v

namespace Ledger

variable {S : Type u} {E : Type v} [Stamped E]

/-! ## What only grows -/

/-- The history is only ever extended, and the log of a term only with entries of that term. -/
structure Grows (g g' : Ledger S E) : Prop where
  /-- Terms do not decrease. -/
  term : ∀ v, g.term v ≤ g'.term v
  /-- Elections stay decided. -/
  winner : ∀ T w, g.winner T = some w → g'.winner T = some w
  /-- A leader's log grows at its end. -/
  leaderLog : ∀ T, ∃ ext, g'.leaderLog T = g.leaderLog T ++ ext ∧
    (g.winner T ≠ none → ∀ e ∈ ext, Stamped.term e = T)
  /-- Votes are kept. -/
  votes : g.votes ⊆ g'.votes
  /-- Acknowledgements are kept. -/
  acks : g.acks ⊆ g'.acks
  /-- Commits are kept. -/
  commits : g.commits ⊆ g'.commits

namespace Grows

variable {g g' g'' : Ledger S E}

theorem refl (g : Ledger S E) : Grows g g :=
  ⟨fun _ ↦ le_rfl, fun _ _ h ↦ h, fun _ ↦ ⟨[], by simp, by simp⟩, le_rfl, le_rfl, le_rfl⟩

theorem winner_ne (h : Grows g g') {T : ℤ} (hT : g.winner T ≠ none) : g'.winner T ≠ none := by
  obtain ⟨w, hw⟩ := Option.ne_none_iff_exists'.mp hT
  rw [h.winner T w hw]
  simp

theorem trans (h : Grows g g') (h' : Grows g' g'') : Grows g g'' where
  term v := (h.term v).trans (h'.term v)
  winner T w hw := h'.winner T w (h.winner T w hw)
  leaderLog T := by
    obtain ⟨e1, h1, h1'⟩ := h.leaderLog T
    obtain ⟨e2, h2, h2'⟩ := h'.leaderLog T
    refine ⟨e1 ++ e2, by rw [h2, h1, List.append_assoc], fun hw e he ↦ ?_⟩
    rcases List.mem_append.mp he with he | he
    · exact h1' hw e he
    · exact h2' (h.winner_ne hw) e he
  votes := h.votes.trans h'.votes
  acks := h.acks.trans h'.acks
  commits := h.commits.trans h'.commits

theorem getElem? (h : Grows g g') {T : ℤ} {k : ℕ} {e : E} (hk : (g.leaderLog T)[k]? = some e) :
    (g'.leaderLog T)[k]? = some e := by
  obtain ⟨ext, hext, -⟩ := h.leaderLog T
  rw [hext, List.getElem?_append_left (List.getElem?_eq_some_iff.mp hk).1]
  exact hk

theorem length_le (h : Grows g g') (T : ℤ) :
    (g.leaderLog T).length ≤ (g'.leaderLog T).length := by
  obtain ⟨ext, hext, -⟩ := h.leaderLog T
  simp [hext]

theorem agree (h : Grows g g') {T : ℤ} {b : ℕ} (hb : b ≤ (g.leaderLog T).length) (a : ℕ) :
    Agree a b (g.leaderLog T) (g'.leaderLog T) := by
  obtain ⟨ext, hext, -⟩ := h.leaderLog T
  rw [hext]
  exact (Agree.of_append hb).symm

theorem has (h : Grows g g') {U T : ℤ} {k : ℕ} (hh : g.Has U T k) : g'.Has U T k := by
  obtain ⟨e, he, hte⟩ := hh
  exact ⟨e, h.getElem? he, hte⟩

theorem lacks (h : Grows g g') {U T : ℤ} {k : ℕ} (hTU : T < U) (hl : g.Lacks U T k) :
    g'.Lacks U T k := by
  refine ⟨h.winner_ne hl.1, ?_⟩
  rintro ⟨e, he, hte⟩
  obtain ⟨ext, hext, hterm⟩ := h.leaderLog U
  rw [hext] at he
  rcases Nat.lt_or_ge k (g.leaderLog U).length with hk | hk
  · rw [List.getElem?_append_left hk] at he
    exact hl.2 ⟨e, he, hte⟩
  · rw [List.getElem?_append_right hk] at he
    have := hterm hl.1 e (List.mem_of_getElem? he)
    omega

/-- What is sealed stays sealed. -/
theorem sealed_mono [Fintype S] (h : Grows g g') (hi : g.Inv) {U U' : ℤ} (hU : U ≤ U')
    {l : List E} {c : ℕ} (hs : g.Sealed U l c) : g'.Sealed U' l c := by
  rcases hs with rfl | ⟨T, k, hc, hTU, hck, hag⟩
  · exact Or.inl rfl
  · refine Or.inr ⟨T, k, h.commits hc, hTU.trans hU, hck, hag.trans (h.agree ?_ 0)⟩
    obtain ⟨e, he, -⟩ := (hi.committed T k hc).1
    have := (List.getElem?_eq_some_iff.mp he).1
    omega

/-- A pledge is kept as long as the server still compares high enough and votes accordingly. -/
theorem pledge (h : Grows g g') {v : S} {T : ℤ} {k : ℕ} (hp : g.Pledge v T k)
    (hg : g'.Guard v T k)
    (hv : ∀ x ∈ g'.votes, x ∉ g.votes → x.voter = v → T < x.term →
      Ahead x.lastTerm x.lastIndex T k ∨ ∃ U, T < U ∧ U < x.term ∧ g'.Lacks U T k) :
    g'.Pledge v T k := by
  refine ⟨hp.term_le.trans (h.term v), hg, fun x hx hxv hTx ↦ ?_⟩
  by_cases hold : x ∈ g.votes
  · rcases hp.votes x hold hxv hTx with ha | ⟨U, h1, h2, h3⟩
    · exact Or.inl ha
    · exact Or.inr ⟨U, h1, h2, h.lacks h1 h3⟩
  · exact hv x hx hold hxv hTx

/-- A server whose log stays as it is keeps comparing as high. -/
theorem guard_of_log (h : Grows g g') {v : S} {T : ℤ} {k : ℕ} (hlog : g'.log v = g.log v)
    (hg : g.Guard v T k) : g'.Guard v T k := by
  rcases hg with ha | ⟨U, h1, h2, h3⟩
  · exact Or.inl (hlog ▸ ha)
  · exact Or.inr ⟨U, h1, h2.trans (h.term v), h.lacks h1 h3⟩

end Grows
/-! ## The moves -/

variable [DecidableEq S]

/-- A server sees a later term. -/
def bump (g : Ledger S E) (v : S) (T : ℤ) : Ledger S E :=
  { g with term := Function.update g.term v T }

/-- A vote is cast. -/
def castVote (g : Ledger S E) (x : Vote S) : Ledger S E := { g with votes := insert x g.votes }

/-- The leader of `T` writes an entry. -/
def create (g : Ledger S E) (w : S) (T : ℤ) (e : E) : Ledger S E :=
  { g with
    leaderLog := Function.update g.leaderLog T (g.leaderLog T ++ [e])
    tail := Function.update g.tail w (g.tail w ++ [e]) }

/-- A follower's tail becomes `tl`, and it acknowledges the first `m` entries of the leader. -/
def adopt (g : Ledger S E) (v : S) (T : ℤ) (m : ℕ) (tl : List E) : Ledger S E :=
  { g with tail := Function.update g.tail v tl, acks := insert (v, T, m) g.acks }

/-- A follower takes the first `s` entries of the leader for its past and keeps its own entries
beyond. -/
def install (g : Ledger S E) (v : S) (T : ℤ) (s : ℕ) : Ledger S E :=
  { g with
    past := Function.update g.past v ((g.leaderLog T).take s)
    tail := Function.update g.tail v ((g.tail v).drop (s - g.snap v)) }

/-- A server compacts its log up to `s`. -/
def compact (g : Ledger S E) (v : S) (s : ℕ) : Ledger S E :=
  { g with
    past := Function.update g.past v ((g.log v).take s)
    tail := Function.update g.tail v ((g.tail v).drop (s - g.snap v)) }

/-- The leader of `T` commits position `k`. -/
def commit (g : Ledger S E) (T : ℤ) (k : ℕ) : Ledger S E :=
  { g with commits := insert (T, k) g.commits }

/-- A candidate wins the election of `T`; it counts its own vote. -/
def elect (g : Ledger S E) (w : S) (T : ℤ) : Ledger S E :=
  { g with
    winner := Function.update g.winner T (some w)
    leaderLog := Function.update g.leaderLog T (g.log w)
    votes := insert ⟨w, w, T, endTerm (g.log w), (g.log w).length⟩ g.votes }

/-! ### What they change -/

section Changes

variable (g : Ledger S E) {v w x : S} {T U : ℤ} {m s : ℕ} {e : E} {tl : List E}

section Unstamped

omit [Stamped E]

theorem create_log_self : (g.create w T e).log w = g.log w ++ [e] := by simp [log, create]

theorem create_log_of_ne (h : v ≠ w) : (g.create w T e).log v = g.log v := by
  simp [log, create, Function.update_of_ne h]

theorem create_leaderLog_self : (g.create w T e).leaderLog T = g.leaderLog T ++ [e] := by
  simp [create]

theorem create_leaderLog_of_ne (h : U ≠ T) : (g.create w T e).leaderLog U = g.leaderLog U := by
  simp [create, Function.update_of_ne h]

theorem adopt_log_self : (g.adopt v T m tl).log v = g.past v ++ tl := by simp [log, adopt]

theorem adopt_log_of_ne (h : x ≠ v) : (g.adopt v T m tl).log x = g.log x := by
  simp [log, adopt, Function.update_of_ne h]

theorem install_past_self : (g.install v T s).past v = (g.leaderLog T).take s := by
  simp [install]

theorem install_past_of_ne (h : x ≠ v) : (g.install v T s).past x = g.past x := by
  simp [install, Function.update_of_ne h]

theorem install_log_of_ne (h : x ≠ v) : (g.install v T s).log x = g.log x := by
  simp [log, install, Function.update_of_ne h]

theorem compact_past_self : (g.compact v s).past v = (g.log v).take s := by simp [compact]

theorem compact_past_of_ne (h : x ≠ v) : (g.compact v s).past x = g.past x := by
  simp [compact, Function.update_of_ne h]

theorem compact_log (hs : g.snap v < s) : (g.compact v s).log x = g.log x := by
  by_cases hx : x = v
  · subst hx
    rw [snap] at hs
    simp only [log, compact, Function.update_self, snap]
    rw [List.take_append, List.take_of_length_le hs.le, List.append_assoc, List.take_append_drop]
  · simp [log, compact, Function.update_of_ne hx]

end Unstamped

section Elect

omit [DecidableEq S]

theorem elect_leaderLog_self : (g.elect w T).leaderLog T = g.log w := by simp [elect]

theorem elect_leaderLog_of_ne (h : U ≠ T) : (g.elect w T).leaderLog U = g.leaderLog U := by
  simp [elect, Function.update_of_ne h]

theorem elect_winner_self : (g.elect w T).winner T = some w := by simp [elect]

theorem elect_winner_of_ne (h : U ≠ T) : (g.elect w T).winner U = g.winner U := by
  simp [elect, Function.update_of_ne h]

end Elect

end Changes

/-- What a follower's tail may become when it takes the first `m` entries of the leader of `T`:
nothing changes where it holds them already; otherwise its log is cut at some `k` — its end, or a
position where it differs — and continued with the leader's. -/
def Adopts (g : Ledger S E) (v : S) (T : ℤ) (m : ℕ) (tl : List E) : Prop :=
  (tl = g.tail v ∧ Agree (g.snap v) m (g.log v) (g.leaderLog T)) ∨
  ∃ k, g.snap v ≤ k ∧ k < m ∧ Agree (g.snap v) k (g.log v) (g.leaderLog T) ∧
    (k = (g.log v).length ∨ k < (g.log v).length ∧ (g.log v)[k]? ≠ (g.leaderLog T)[k]?) ∧
    g.past v ++ tl = (g.log v).take k ++ ((g.leaderLog T).take m).drop k

variable [Fintype S]

/-- One move, with the condition under which it may happen. -/
inductive Move (g : Ledger S E) : Ledger S E → Prop
  | bump {v : S} {T : ℤ} (h : g.term v ≤ T) : Move g (g.bump v T)
  | castVote {x : Vote S} (ht : g.term x.voter = x.term) (hw : g.winner x.term = none)
      (hu : UpToDate x.lastTerm x.lastIndex (endTerm (g.log x.voter)) (g.log x.voter).length) :
      Move g (g.castVote x)
  | elect {w : S} {T : ℤ} {Q : Finset S} (ht : g.term w = T) (hw : g.winner T = none)
      (h0 : 0 ≤ T) (hQ : Majority Q)
      (hv : ∀ v ∈ Q, v = w ∨ ⟨v, w, T, endTerm (g.log w), (g.log w).length⟩ ∈ g.votes) :
      Move g (g.elect w T)
  | create {w : S} {T : ℤ} {e : E} (hw : g.winner T = some w) (ht : g.term w = T)
      (hl : g.leaderLog T = g.log w) (he : Stamped.term e = T) : Move g (g.create w T e)
  | adopt {v : S} {T : ℤ} {m : ℕ} {tl : List E} (ht : g.term v = T) (hw : g.winner T ≠ none)
      (hm : m ≤ (g.leaderLog T).length) (ha : g.Adopts v T m tl) : Move g (g.adopt v T m tl)
  | install {v : S} {T : ℤ} {s : ℕ} (ht : g.term v = T) (hw : g.winner T ≠ none)
      (hs : g.snap v < s) (hm : s ≤ (g.leaderLog T).length)
      (hc : g.Sealed T (g.leaderLog T) s) : Move g (g.install v T s)
  | compact {v : S} {s : ℕ} (hs : g.snap v < s) (hm : s ≤ (g.log v).length)
      (hc : g.Sealed (g.term v) (g.log v) s) : Move g (g.compact v s)
  | commit {T : ℤ} {k : ℕ} {Q : Finset S} (hT : g.Has T T k)
      (hnew : ∀ k', k ≤ k' → (T, k') ∉ g.commits) (hQ : Majority Q)
      (hv : ∀ v ∈ Q, g.winner T = some v ∨ ∃ m, k < m ∧ (v, T, m) ∈ g.acks) :
      Move g (g.commit T k)

/-! ## The moves preserve the invariant -/

variable {g g' : Ledger S E}

omit [DecidableEq S] [Fintype S] in
/-- Either some leader a server may have heard lacks an entry, or all of them have it. -/
theorem heard_cases (g : Ledger S E) (x : S) (U : ℤ) (k : ℕ) :
    (∃ V, U < V ∧ V ≤ g.term x ∧ g.Lacks V U k) ∨
      ∀ V, U < V → V ≤ g.term x → g.winner V ≠ none → g.Has V U k := by
  by_cases hall : ∀ V, U < V → V ≤ g.term x → g.winner V ≠ none → g.Has V U k
  · exact Or.inr hall
  · push Not at hall
    obtain ⟨V, h1, h2, h3, h4⟩ := hall
    exact Or.inl ⟨V, h1, h2, h3, h4⟩

namespace Inv

/-- **Every move extends the history.** -/
theorem grows (h : g.Inv) (hm : Move g g') : Grows g g' := by
  have hsame : ∀ {g₁ : Ledger S E}, g₁.leaderLog = g.leaderLog →
      ∀ T, ∃ ext, g₁.leaderLog T = g.leaderLog T ++ ext ∧
        (g.winner T ≠ none → ∀ e ∈ ext, Stamped.term e = T) :=
    fun hL T ↦ ⟨[], by simp [hL], by simp⟩
  cases hm with
  | @bump v T hT =>
    refine ⟨fun x ↦ ?_, fun _ _ h ↦ h, hsame rfl, le_rfl, le_rfl, le_rfl⟩
    by_cases hx : x = v
    · subst hx; simpa [Ledger.bump] using hT
    · simp [Ledger.bump, Function.update_of_ne hx]
  | castVote =>
    exact ⟨fun _ ↦ le_rfl, fun _ _ h ↦ h, hsame rfl, Set.subset_insert _ _, le_rfl, le_rfl⟩
  | @elect w T _ ht hw =>
    refine ⟨fun _ ↦ le_rfl, fun U x hx ↦ ?_, fun U ↦ ?_, Set.subset_insert _ _, le_rfl, le_rfl⟩
    · have hU : U ≠ T := by rintro rfl; rw [hw] at hx; simp at hx
      simpa [Ledger.elect, Function.update_of_ne hU] using hx
    · by_cases hU : U = T
      · subst hU
        exact ⟨g.log w, by simp [Ledger.elect, h.unelected U hw], fun hn ↦ absurd hw hn⟩
      · exact ⟨[], by simp [Ledger.elect, Function.update_of_ne hU], by simp⟩
  | @create w T e hw ht hl he =>
    refine ⟨fun _ ↦ le_rfl, fun _ _ h ↦ h, fun U ↦ ?_, le_rfl, le_rfl, le_rfl⟩
    by_cases hU : U = T
    · subst hU
      exact ⟨[e], by simp [Ledger.create], fun _ x hx ↦ by rw [List.mem_singleton.mp hx, he]⟩
    · exact ⟨[], by simp [Ledger.create, Function.update_of_ne hU], by simp⟩
  | adopt =>
    exact ⟨fun _ ↦ le_rfl, fun _ _ h ↦ h, hsame rfl, le_rfl, Set.subset_insert _ _, le_rfl⟩
  | install => exact ⟨fun _ ↦ le_rfl, fun _ _ h ↦ h, hsame rfl, le_rfl, le_rfl, le_rfl⟩
  | compact => exact ⟨fun _ ↦ le_rfl, fun _ _ h ↦ h, hsame rfl, le_rfl, le_rfl, le_rfl⟩
  | commit =>
    exact ⟨fun _ ↦ le_rfl, fun _ _ h ↦ h, hsame rfl, le_rfl, le_rfl, Set.subset_insert _ _⟩

omit [DecidableEq S] in
/-- A move that rewrites servers, but no leader's log, no election, no vote and no commit: what has
to be shown is that the logs are still copies, and that nobody's comparison drops. -/
theorem reshape (h : g.Inv) (hG : Grows g g') (hL : g'.leaderLog = g.leaderLog)
    (hW : g'.winner = g.winner) (hV : g'.votes = g.votes) (hC : g'.commits = g.commits)
    (hchain : ∀ v k e, g'.snap v ≤ k → (g'.log v)[k]? = some e →
      Agree (g'.snap v) (k + 1) (g'.log v) (g.leaderLog (Stamped.term e)))
    (hterm : ∀ v, ∀ e ∈ g'.tail v, Stamped.term e ≤ g'.term v)
    (hpast : ∀ v, g.Sealed (g'.term v) (g'.past v) (g'.snap v))
    (hguard : ∀ v T k, g.Has T T k → T ≤ g.term v → g.Guard v T k → g'.Guard v T k)
    (hack : ∀ v T m, (v, T, m) ∈ g'.acks → (v, T, m) ∉ g.acks →
      T ≤ g'.term v ∧ m ≤ (g.leaderLog T).length ∧ ∀ k < m, g.Has T T k →
        g'.Pledge v T k ∨ ∃ k', k ≤ k' ∧ (T, k') ∈ g.commits) : g'.Inv := by
  have hhas : ∀ U T k, g'.Has U T k ↔ g.Has U T k := by
    intro U T k
    rw [Has, Has, hL]
  have hpl : ∀ {v T k}, g.Has T T k → g.Pledge v T k → g'.Pledge v T k := by
    intro v T k hh hp
    refine hG.pledge hp (hguard v T k hh hp.term_le hp.guard) fun x hx hxn ↦ ?_
    exact absurd (hV ▸ hx) hxn
  constructor
  · intro T hT; exact h.nonneg T (hW ▸ hT)
  · intro T hT; rw [hL]; exact h.unelected T (hW ▸ hT)
  · intro U k e he; rw [hL] at he ⊢; exact h.matching U k e he
  · intro U e he; rw [hL] at he; exact h.term_le U e he
  · intro v k e hk he; rw [hL]; exact hchain v k e hk he
  · exact hterm
  · intro v
    rcases hpast v with h0 | ⟨T, k, hc, hr⟩
    · exact Or.inl h0
    · exact Or.inr ⟨T, k, hC ▸ hc, hL ▸ hr⟩
  · intro x hx
    exact (h.vote_term x (hV ▸ hx)).trans (hG.term _)
  · intro T w hw
    rw [hL, hV]
    exact h.backed T w (hW ▸ hw)
  · intro T w k hw hh
    rw [hhas] at hh
    exact hpl hh (h.own T w k (hW ▸ hw) hh)
  · intro v T m hm
    by_cases hold : (v, T, m) ∈ g.acks
    · obtain ⟨h1, h2, h3⟩ := h.acked v T m hold
      refine ⟨h1.trans (hG.term v), hL ▸ h2, fun k hk hh ↦ ?_⟩
      rw [hhas] at hh
      rcases h3 k hk hh with hp | ⟨k', hk', hc⟩
      · exact Or.inl (hpl hh hp)
      · exact Or.inr ⟨k', hk', hC ▸ hc⟩
    · obtain ⟨h1, h2, h3⟩ := hack v T m hm hold
      refine ⟨h1, hL ▸ h2, fun k hk hh ↦ ?_⟩
      rw [hC]
      exact h3 k hk ((hhas _ _ _).mp hh)
  · intro T k hc
    obtain ⟨hh, Q, hQ, hp⟩ := h.committed T k (hC ▸ hc)
    exact ⟨(hhas _ _ _).mpr hh, Q, hQ, fun v hv ↦ hpl hh (hp v hv)⟩

omit [DecidableEq S] in
/-- A move under which all pledges are kept keeps acknowledgements meaningful, -/
theorem acked_of_grows (h : g.Inv) (hG : Grows g g')
    (hpl : ∀ {v T k}, g.Pledge v T k → g'.Pledge v T k) {v : S} {T : ℤ} {m : ℕ}
    (hm : (v, T, m) ∈ g.acks) (hhas : ∀ k < m, g'.Has T T k → g.Has T T k) :
    T ≤ g'.term v ∧ m ≤ (g'.leaderLog T).length ∧ ∀ k < m, g'.Has T T k →
      g'.Pledge v T k ∨ ∃ k', k ≤ k' ∧ (T, k') ∈ g'.commits := by
  obtain ⟨h1, h2, h3⟩ := h.acked v T m hm
  refine ⟨h1.trans (hG.term v), h2.trans (hG.length_le T), fun k hk hh ↦ ?_⟩
  rcases h3 k hk (hhas k hk hh) with hp | ⟨k', hk', hc⟩
  · exact Or.inl (hpl hp)
  · exact Or.inr ⟨k', hk', hG.commits hc⟩

omit [DecidableEq S] in
/-- and what is committed backed by a majority. -/
theorem committed_of_grows (h : g.Inv) (hG : Grows g g')
    (hpl : ∀ {v T k}, g.Pledge v T k → g'.Pledge v T k) {T : ℤ} {k : ℕ} (hc : (T, k) ∈ g.commits) :
    g'.Has T T k ∧ ∃ Q : Finset S, Majority Q ∧ ∀ v ∈ Q, g'.Pledge v T k := by
  obtain ⟨hh, Q, hQ, hp⟩ := h.committed T k hc
  exact ⟨hG.has hh, Q, hQ, fun v hv ↦ hpl (hp v hv)⟩

theorem bump (h : g.Inv) {v : S} {T : ℤ} (hT : g.term v ≤ T) : (g.bump v T).Inv := by
  have hG : Grows g (g.bump v T) := h.grows (.bump hT)
  refine h.reshape hG rfl rfl rfl rfl h.chain ?_ ?_ ?_ ?_
  · exact fun x e he ↦ (h.tail_term x e he).trans (hG.term x)
  · exact fun x ↦ (Grows.refl g).sealed_mono h (hG.term x) (h.past_sealed x)
  · exact fun x T k _ _ hg ↦ hG.guard_of_log rfl hg
  · exact fun x T m hm hn ↦ absurd hm hn

/-! ### A follower takes entries -/

omit [Stamped E] [DecidableEq S] [Fintype S] in
/-- The log after an `adopt` that cuts at `k`: the old one below `k`, the leader's from there. -/
theorem adopt_getElem? {v : S} {T : ℤ} {m k : ℕ} {tl : List E}
    (hk : k ≤ (g.log v).length)
    (hlog : g.past v ++ tl = (g.log v).take k ++ ((g.leaderLog T).take m).drop k) (j : ℕ) :
    (g.past v ++ tl)[j]? = if j < k then (g.log v)[j]?
      else if j < m then (g.leaderLog T)[j]? else none := by
  rw [hlog]
  have hlen : ((g.log v).take k).length = k := by rw [List.length_take]; omega
  by_cases hj : j < k
  · rw [if_pos hj, List.getElem?_append_left (by omega), List.getElem?_take, if_pos hj]
  · rw [if_neg hj, List.getElem?_append_right (by omega), hlen, List.getElem?_drop,
      show k + (j - k) = j by omega, List.getElem?_take]

omit [Stamped E] [DecidableEq S] [Fintype S] in
/-- A follower's new log agrees with the leader's on everything it acknowledges, beyond what it
has compacted. -/
theorem adopts_agree {v : S} {T : ℤ} {m : ℕ} {tl : List E} (ha : g.Adopts v T m tl) :
    Agree (g.snap v) m (g.past v ++ tl) (g.leaderLog T) := by
  rcases ha with ⟨rfl, hag⟩ | ⟨k, hsk, hkm, hag, hcut, hlog⟩
  · exact hag
  · intro j hj hjm
    rw [adopt_getElem? (by omega) hlog]
    split
    · next hjk => exact hag j hj hjk
    · rfl

section Adopt

variable {v : S} {T : ℤ} {m : ℕ} {tl : List E}

omit [DecidableEq S] in
/-- Its new log is made of pieces of leaders' logs, too. -/
theorem adopt_chain (h : g.Inv) (ha : g.Adopts v T m tl) {k : ℕ} {e : E} (hk : g.snap v ≤ k)
    (he : (g.past v ++ tl)[k]? = some e) :
    Agree (g.snap v) (k + 1) (g.past v ++ tl) (g.leaderLog (Stamped.term e)) := by
  have hagree := adopts_agree ha
  rcases Nat.lt_or_ge k m with hkm | hkm
  · have heT : (g.leaderLog T)[k]? = some e := (hagree k hk hkm) ▸ he
    exact (hagree.mono le_rfl hkm).trans ((h.matching T k e heT).mono (Nat.zero_le _) le_rfl)
  · rcases ha with ⟨rfl, -⟩ | ⟨j, hsj, hjm, -, hcut, hlog⟩
    · exact h.chain v k e hk he
    · rw [adopt_getElem? (by omega) hlog, if_neg (by omega), if_neg (by omega)] at he
      exact absurd he (by simp)

omit [DecidableEq S] in
/-- It has no entry of a later term. -/
theorem adopt_term_le (h : g.Inv) (ht : g.term v = T) (ha : g.Adopts v T m tl) {e : E}
    (he : e ∈ g.past v ++ tl) : Stamped.term e ≤ T := by
  obtain ⟨k, hk⟩ := List.mem_iff_getElem?.mp he
  rcases ha with ⟨rfl, -⟩ | ⟨j, hsj, hjm, -, hcut, hlog⟩
  · exact ht ▸ h.log_term_le (v := v) he
  · rw [adopt_getElem? (by omega) hlog] at hk
    split at hk
    · exact ht ▸ h.log_term_le (List.mem_of_getElem? hk)
    · split at hk
      · exact h.term_le T e (List.mem_of_getElem? hk)
      · exact absurd hk (by simp)

/-- It compares as high as before: a cut below `k` would contradict `ahead_spec`; otherwise the new
end is beyond `k`. -/
theorem adopt_guard (h : g.Inv) (ht : g.term v = T) (hw : g.winner T ≠ none)
    (hm : m ≤ (g.leaderLog T).length) (ha : g.Adopts v T m tl) {U : ℤ} {k : ℕ} (hU : g.Has U U k)
    (hUv : U ≤ g.term v) (hguard : g.Guard v U k) : (g.adopt v T m tl).Guard v U k := by
  have hagree := adopts_agree ha
  rcases hguard with hah | hl
  swap
  · exact Or.inr hl
  rcases ha with ⟨rfl, -⟩ | ⟨j, hsj, hjm, hag, hcut, hlog⟩
  · exact Or.inl (by rwa [adopt_log_self])
  rcases g.heard_cases v U k with hl | hall
  · exact Or.inr hl
  obtain ⟨hklen, hkag⟩ := h.ahead_spec hU hall hah
  have hTk : g.Has T U k := by
    rcases Int.lt_or_eq_of_le (ht ▸ hUv) with hlt | rfl
    · exact hall T hlt ht.ge hw
    · exact hU
  have hkj : k < j := by
    by_contra hjk
    rcases hcut with rfl | ⟨hjlen, hne⟩
    · omega
    · refine hne ((hkag j hsj (by omega)).trans ?_)
      exact (h.agree_of_has hTk j (Nat.zero_le _) (by omega)).symm
  -- the new log ends at `m`, in the leader's entry there
  have hlen : (g.past v ++ tl).length = m := by
    rw [hlog, List.length_append, List.length_take, List.length_drop, List.length_take]
    omega
  obtain ⟨e, he⟩ : ∃ e, (g.leaderLog T)[m - 1]? = some e :=
    ⟨_, List.getElem?_eq_getElem (by omega)⟩
  have hend : endTerm (g.past v ++ tl) = Stamped.term e :=
    endTerm_of_getElem? (k := m - 1) ((hagree _ (by omega) (by omega)).trans he) (by omega)
  obtain ⟨e', he', hte'⟩ := hTk
  have hmono := h.leaderLog_mono he' he (by omega)
  refine Or.inl ?_
  rw [adopt_log_self, hend, hlen, Ahead]
  omega

/-- It stands for what it acknowledges, unless that is compacted already, and so committed. -/
theorem adopt_pledge (h : g.Inv) (ht : g.term v = T) (hw : g.winner T ≠ none)
    (ha : g.Adopts v T m tl) {k : ℕ} (hk : k < m) (hh : g.Has T T k) :
    (g.adopt v T m tl).Pledge v T k ∨ ∃ k', k ≤ k' ∧ (T, k') ∈ g.commits := by
  obtain ⟨e, he, hte⟩ := hh
  rcases Nat.lt_or_ge k (g.snap v) with hks | hks
  · -- committed by this very leader
    refine Or.inr ?_
    rcases h.past_sealed v with h0 | ⟨V, j, hc, hVv, hj, -⟩
    · omega
    · have hVT : (g.leaderLog V)[k]? = some e :=
        (h.agree_of_commit hc (hVv.trans ht.le) hw k (Nat.zero_le _) (by omega)).trans he
      have hle := h.term_le V e (List.mem_of_getElem? hVT)
      have hV : V = T := by omega
      exact ⟨j, by omega, hV ▸ hc⟩
  · refine Or.inl ⟨ht.ge, Or.inl ?_, fun y hy hyv hTy ↦ ?_⟩
    · -- the log ends at or beyond `k`, in an entry of term `T`
      rw [adopt_log_self]
      have hke : (g.past v ++ tl)[k]? = some e := (adopts_agree ha k hks hk).trans he
      have hklen := (List.getElem?_eq_some_iff.mp hke).1
      obtain ⟨e', he'⟩ : ∃ e', (g.past v ++ tl)[(g.past v ++ tl).length - 1]? = some e' :=
        ⟨_, List.getElem?_eq_getElem (by omega)⟩
      have hend := endTerm_of_getElem? he' (by omega)
      have hin := h.adopt_chain ha (by omega) he' k hks (by omega)
      rw [hke] at hin
      have hle := h.term_le _ e (List.mem_of_getElem? hin.symm)
      have hle' := h.adopt_term_le ht ha (List.mem_of_getElem? he')
      rw [hend, Ahead]
      omega
    · have := h.vote_term y hy
      rw [hyv] at this
      omega

theorem adopt (h : g.Inv) (ht : g.term v = T) (hw : g.winner T ≠ none)
    (hm : m ≤ (g.leaderLog T).length) (ha : g.Adopts v T m tl) : (g.adopt v T m tl).Inv := by
  have hG : Grows g (g.adopt v T m tl) := h.grows (.adopt ht hw hm ha)
  refine h.reshape hG rfl rfl rfl rfl ?_ ?_ h.past_sealed ?_ ?_
  · intro x k e hk he
    by_cases hx : x = v
    · subst hx
      rw [adopt_log_self] at he ⊢
      exact h.adopt_chain ha hk he
    · rw [adopt_log_of_ne g hx] at he ⊢
      exact h.chain x k e hk he
  · intro x e he
    by_cases hx : x = v
    · subst hx
      refine ht.symm ▸ h.adopt_term_le ht ha (List.mem_append_right _ ?_)
      simpa [Ledger.adopt] using he
    · exact h.tail_term x e (by simpa [Ledger.adopt, Function.update_of_ne hx] using he)
  · intro x U k hU hUx hguard
    by_cases hx : x = v
    · subst hx
      exact h.adopt_guard ht hw hm ha hU hUx hguard
    · exact hG.guard_of_log (adopt_log_of_ne g hx) hguard
  · intro x U m' hm' hn
    obtain ⟨rfl, rfl, rfl⟩ : x = v ∧ U = T ∧ m' = m := by
      have := (Set.mem_insert_iff.mp hm').resolve_right hn
      simpa using this
    exact ⟨ht.ge, hm, fun k hk hh ↦ h.adopt_pledge ht hw ha hk hh⟩

end Adopt

/-! ### Compaction -/

omit [Stamped E] [Fintype S] in
/-- The log after an `install`: the leader's below `s`, the server's own from there. -/
theorem install_getElem? {v : S} {T : ℤ} {s : ℕ} (hs : g.snap v < s)
    (hm : s ≤ (g.leaderLog T).length) (j : ℕ) :
    ((g.install v T s).log v)[j]? =
      if j < s then (g.leaderLog T)[j]? else (g.log v)[j]? := by
  have hlen : ((g.leaderLog T).take s).length = s := by rw [List.length_take]; omega
  rw [log, Ledger.install]
  simp only [Function.update_self]
  by_cases hj : j < s
  · rw [if_pos hj, List.getElem?_append_left (by omega), List.getElem?_take, if_pos hj]
  · rw [if_neg hj, List.getElem?_append_right (by omega), hlen, List.getElem?_drop, log,
      List.getElem?_append_right (by rw [snap] at hs; omega)]
    congr 1
    rw [snap] at hs ⊢
    omega

omit [Stamped E] [Fintype S] in
theorem install_length {v : S} {T : ℤ} {s : ℕ} (hs : g.snap v < s)
    (hm : s ≤ (g.leaderLog T).length) :
    ((g.install v T s).log v).length = max s (g.log v).length := by
  rw [snap] at hs
  simp only [log, Ledger.install, Function.update_self, List.length_append, List.length_take,
    List.length_drop, snap]
  omega

section Install

variable {v : S} {T : ℤ} {s : ℕ}

/-- A server that is handed a snapshot compares as high as before. -/
theorem install_guard (h : g.Inv) (ht : g.term v = T) (hw : g.winner T ≠ none)
    (hs : g.snap v < s) (hm : s ≤ (g.leaderLog T).length) {U : ℤ} {k : ℕ} (hU : g.Has U U k)
    (hUv : U ≤ g.term v) (hguard : g.Guard v U k) : (g.install v T s).Guard v U k := by
  have hget := install_getElem? hs hm
  have hlen := install_length hs hm
  rcases hguard with hah | hl
  swap
  · exact Or.inr hl
  rcases Nat.lt_or_ge s (g.log v).length with hkeep | hdrop
  · -- the log still ends in the same entry
    refine Or.inl ?_
    have hT0 : 0 ≤ U := h.nonneg U (h.winner_of_has hU)
    obtain ⟨i, e, hi, hie, hte⟩ := exists_last (l := g.log v) (by rw [Ahead] at hah; omega)
    have hend : endTerm ((g.install v T s).log v) = Stamped.term e :=
      endTerm_of_getElem? (k := i) (by rw [hget, if_neg (by omega)]; exact hie) (by omega)
    rw [hend, hte, hlen, Nat.max_eq_right hkeep.le]
    exact hah
  rcases g.heard_cases v U k with hl | hall
  · exact Or.inr hl
  -- the log now ends in the leader's entry at the end of the snapshot
  obtain ⟨hklen, -⟩ := h.ahead_spec hU hall hah
  obtain ⟨e', he', hte'⟩ : g.Has T U k := by
    rcases Int.lt_or_eq_of_le (ht ▸ hUv) with hlt | rfl
    · exact hall T hlt ht.ge hw
    · exact hU
  obtain ⟨e, he⟩ : ∃ e, (g.leaderLog T)[s - 1]? = some e :=
    ⟨_, List.getElem?_eq_getElem (by omega)⟩
  have hend : endTerm ((g.install v T s).log v) = Stamped.term e :=
    endTerm_of_getElem? (k := s - 1) (by rw [hget, if_pos (by omega)]; exact he) (by omega)
  have hmono := h.leaderLog_mono he' he (by omega)
  refine Or.inl ?_
  rw [hend, hlen, Nat.max_eq_left hdrop, Ahead]
  omega

theorem install (h : g.Inv) (ht : g.term v = T) (hw : g.winner T ≠ none)
    (hs : g.snap v < s) (hm : s ≤ (g.leaderLog T).length)
    (hc : g.Sealed T (g.leaderLog T) s) : (g.install v T s).Inv := by
  have hG : Grows g (g.install v T s) := h.grows (.install ht hw hs hm hc)
  have hsnapv : (g.install v T s).snap v = s := by
    rw [snap, install_past_self, List.length_take]
    omega
  have hsnap : ∀ x, x ≠ v → (g.install v T s).snap x = g.snap x := by
    intro x hx
    rw [snap, install_past_of_ne g hx, snap]
  refine h.reshape hG rfl rfl rfl rfl ?_ ?_ ?_ ?_ fun x U m hx hn ↦ absurd hx hn
  · intro x k e hk he
    by_cases hx : x = v
    swap
    · rw [install_log_of_ne g hx] at he ⊢
      rw [hsnap x hx] at hk ⊢
      exact h.chain x k e hk he
    subst hx
    rw [hsnapv] at hk ⊢
    rw [install_getElem? hs hm, if_neg (by omega)] at he
    intro j hj hjk
    rw [install_getElem? hs hm, if_neg (by omega)]
    exact h.chain x k e (by omega) he j (by omega) hjk
  · intro x e he
    by_cases hx : x = v
    · subst hx
      have hd : e ∈ (g.tail x).drop (s - g.snap x) := by simpa [Ledger.install] using he
      exact h.tail_term x e (List.mem_of_mem_drop hd)
    · exact h.tail_term x e (by simpa [Ledger.install, Function.update_of_ne hx] using he)
  · intro x
    by_cases hx : x = v
    · subst hx
      rw [hsnapv, install_past_self]
      rcases hc with h0 | ⟨U, k, hU, hUT, hsk, hag⟩
      · omega
      · refine Or.inr ⟨U, k, hU, ht.symm ▸ hUT, hsk, fun j hj hjs ↦ ?_⟩
        rw [List.getElem?_take, if_pos hjs]
        exact hag j hj hjs
    · rw [hsnap x hx, install_past_of_ne g hx]
      exact h.past_sealed x
  · intro x U k hU hUx hguard
    by_cases hx : x = v
    · subst hx
      exact h.install_guard ht hw hs hm hU hUx hguard
    · exact hG.guard_of_log (install_log_of_ne g hx) hguard

end Install

theorem compact (h : g.Inv) {v : S} {s : ℕ} (hs : g.snap v < s) (hm : s ≤ (g.log v).length)
    (hc : g.Sealed (g.term v) (g.log v) s) : (g.compact v s).Inv := by
  have hG : Grows g (g.compact v s) := h.grows (.compact hs hm hc)
  have hsnapv : (g.compact v s).snap v = s := by
    rw [snap, compact_past_self, List.length_take]
    omega
  have hsnap : ∀ x, g.snap x ≤ (g.compact v s).snap x := by
    intro x
    by_cases hx : x = v
    · subst hx
      omega
    · rw [snap, snap, compact_past_of_ne g hx]
  refine h.reshape hG rfl rfl rfl rfl ?_ ?_ ?_ ?_ fun x U m hx hn ↦ absurd hx hn
  · intro x k e hk he
    rw [compact_log g hs] at he ⊢
    exact (h.chain x k e ((hsnap x).trans hk) he).mono (hsnap x) le_rfl
  · intro x e he
    by_cases hx : x = v
    · subst hx
      have hd : e ∈ (g.tail x).drop (s - g.snap x) := by simpa [Ledger.compact] using he
      exact h.tail_term x e (List.mem_of_mem_drop hd)
    · exact h.tail_term x e (by simpa [Ledger.compact, Function.update_of_ne hx] using he)
  · intro x
    by_cases hx : x = v
    · subst hx
      rw [hsnapv, compact_past_self]
      rcases hc with h0 | ⟨U, k, hU, hUT, hsk, hag⟩
      · omega
      · refine Or.inr ⟨U, k, hU, hUT, hsk, fun j hj hjs ↦ ?_⟩
        rw [List.getElem?_take, if_pos hjs]
        exact hag j hj hjs
    · rw [snap, compact_past_of_ne g hx]
      exact h.past_sealed x
  · exact fun x U k _ _ hguard ↦ hG.guard_of_log (compact_log g hs) hguard

/-! ### Votes and commits -/

theorem castVote (h : g.Inv) {x : Vote S} (ht : g.term x.voter = x.term)
    (hw : g.winner x.term = none)
    (hu : UpToDate x.lastTerm x.lastIndex (endTerm (g.log x.voter)) (g.log x.voter).length) :
    (g.castVote x).Inv := by
  have hG : Grows g (g.castVote x) := h.grows (.castVote ht hw hu)
  have hpl : ∀ {v T k}, g.Pledge v T k → (g.castVote x).Pledge v T k := by
    intro v T k hp
    refine hG.pledge hp (hG.guard_of_log rfl hp.guard) fun y hy hyn hyv hTy ↦ ?_
    obtain rfl : y = x := (Set.mem_insert_iff.mp hy).resolve_right hyn
    subst hyv
    rcases hp.guard with ha | ⟨U, h1, h2, h3⟩
    · exact Or.inl (ha.of_upToDate hu)
    · refine Or.inr ⟨U, h1, ?_, h3⟩
      have hne : U ≠ y.term := fun he ↦ h3.1 (he ▸ hw)
      omega
  refine ⟨h.nonneg, h.unelected, h.matching, h.term_le, h.chain, h.tail_term, h.past_sealed, ?_, ?_,
    fun T w k hT hh ↦ hpl (h.own T w k hT hh),
    fun v T m hm ↦ h.acked_of_grows hG hpl hm fun _ _ hh ↦ hh,
    fun T k hc ↦ h.committed_of_grows hG hpl hc⟩
  · intro y hy
    rcases Set.mem_insert_iff.mp hy with rfl | hy
    · exact ht.ge
    · exact h.vote_term y hy
  · intro T w hT
    obtain ⟨Q, hQ, lt, li, hv, hrest⟩ := h.backed T w hT
    exact ⟨Q, hQ, lt, li, fun v hvQ ↦ Set.mem_insert_of_mem _ (hv v hvQ), hrest⟩

theorem commit (h : g.Inv) {T : ℤ} {k : ℕ} {Q : Finset S} (hT : g.Has T T k)
    (hnew : ∀ k', k ≤ k' → (T, k') ∉ g.commits) (hQ : Majority Q)
    (hv : ∀ v ∈ Q, g.winner T = some v ∨ ∃ m, k < m ∧ (v, T, m) ∈ g.acks) :
    (g.commit T k).Inv := by
  have hG : Grows g (g.commit T k) := h.grows (.commit hT hnew hQ hv)
  have hpl : ∀ {v T' k'}, g.Pledge v T' k' → (g.commit T k).Pledge v T' k' := fun hp ↦
    hG.pledge hp (hG.guard_of_log rfl hp.guard) fun y hy hyn ↦ absurd hy hyn
  refine ⟨h.nonneg, h.unelected, h.matching, h.term_le, h.chain, h.tail_term,
    fun v ↦ hG.sealed_mono h le_rfl (h.past_sealed v), h.vote_term, h.backed,
    fun T' w k' hT' hh ↦ hpl (h.own T' w k' hT' hh),
    fun v T' m hm ↦ h.acked_of_grows hG hpl hm fun _ _ hh ↦ hh, ?_⟩
  intro T' k' hc
  rcases Set.mem_insert_iff.mp hc with he | hc
  · obtain ⟨rfl, rfl⟩ : T' = T ∧ k' = k := by simpa using he
    refine ⟨hT, Q, hQ, fun v hvQ ↦ hpl ?_⟩
    rcases hv v hvQ with hown | ⟨m, hkm, hack⟩
    · exact h.own T' v k' hown hT
    · rcases (h.acked v T' m hack).2.2 k' hkm hT with hp | ⟨j, hj, hc'⟩
      · exact hp
      · exact absurd hc' (hnew j hj)
  · exact h.committed_of_grows hG hpl hc

/-! ### The leader's log -/

section Create

variable {w : S} {T : ℤ} {e : E}

omit [Stamped E] [Fintype S] in
/-- An entry of a leader's log is an old one, or the new one at the end. -/
theorem create_cases {U : ℤ} {k : ℕ} {x : E}
    (hx : ((g.create w T e).leaderLog U)[k]? = some x) :
    (g.leaderLog U)[k]? = some x ∨ U = T ∧ k = (g.leaderLog T).length ∧ x = e := by
  by_cases hU : U = T
  swap
  · rw [create_leaderLog_of_ne g hU] at hx
    exact Or.inl hx
  subst hU
  rw [create_leaderLog_self] at hx
  rcases Nat.lt_or_ge k (g.leaderLog U).length with hk | hk
  · exact Or.inl (by rwa [List.getElem?_append_left hk] at hx)
  · rw [List.getElem?_append_right hk, List.getElem?_singleton] at hx
    split at hx
    · exact Or.inr ⟨rfl, by omega, (Option.some_inj.mp hx).symm⟩
    · exact absurd hx (by simp)

omit [Fintype S] in
theorem create_has {U : ℤ} {k : ℕ} (hh : (g.create w T e).Has U U k) :
    g.Has U U k ∨ U = T ∧ k = (g.leaderLog T).length := by
  obtain ⟨x, hx, hxt⟩ := hh
  rcases create_cases hx with hx | ⟨h1, h2, -⟩
  · exact Or.inl ⟨x, hx, hxt⟩
  · exact Or.inr ⟨h1, h2⟩

/-- A leader compares as high as before, as its log only gets longer and ends in its own term. -/
theorem create_guard (h : g.Inv) (hG : Grows g (g.create w T e)) (hw : g.winner T = some w)
    (ht : g.term w = T) (he : Stamped.term e = T) {v : S} {T' : ℤ} {k : ℕ}
    (hgd : g.Guard v T' k) : (g.create w T e).Guard v T' k := by
  by_cases hv : v = w
  swap
  · exact hG.guard_of_log (create_log_of_ne g hv) hgd
  subst hv
  rcases hgd with ha | ⟨U, h1, h2, h3⟩
  swap
  · exact Or.inr ⟨U, h1, h2, hG.lacks h1 h3⟩
  refine Or.inl ?_
  rw [create_log_self, endTerm_concat, he, List.length_append, List.length_singleton]
  have hend : endTerm (g.log v) ≤ T ∨ endTerm (g.log v) < 0 := by
    by_contra hcon
    push Not at hcon
    obtain ⟨i, x, -, hix, hxt⟩ := exists_last hcon.2
    have := h.log_term_le (List.mem_of_getElem? hix)
    omega
  have hT0 := h.nonneg T (by rw [hw]; simp)
  rw [Ahead] at ha ⊢
  omega

/-- The logs are still copies of the leaders', with the new entry in both. -/
theorem create_chain (h : g.Inv) (hG : Grows g (g.create w T e)) (hl : g.leaderLog T = g.log w)
    (he : Stamped.term e = T) {v : S} {k : ℕ} {x : E} (hk : g.snap v ≤ k)
    (hx : ((g.create w T e).log v)[k]? = some x) :
    Agree (g.snap v) (k + 1) ((g.create w T e).log v)
      ((g.create w T e).leaderLog (Stamped.term x)) := by
  -- a log that had the entry agrees with a leader's log that has grown
  have hold : (g.log v)[k]? = some x →
      Agree (g.snap v) (k + 1) (g.log v) ((g.create w T e).leaderLog (Stamped.term x)) := by
    intro hx
    have hlen := (List.getElem?_eq_some_iff.mp (h.log_mem_leaderLog hx)).1
    exact (h.chain v k x hk hx).trans (hG.agree hlen _)
  by_cases hv : v = w
  swap
  · rw [create_log_of_ne g hv] at hx ⊢
    exact hold hx
  subst hv
  rw [create_log_self] at hx ⊢
  rcases Nat.lt_or_ge k (g.log v).length with hlt | hge
  · rw [List.getElem?_append_left hlt] at hx
    exact (Agree.of_append hlt).trans (hold hx)
  · rw [List.getElem?_append_right hge, List.getElem?_singleton] at hx
    split at hx
    · obtain rfl : e = x := Option.some_inj.mp hx
      rw [he, create_leaderLog_self, hl]
      exact fun _ _ _ ↦ rfl
    · exact absurd hx (by simp)

theorem create (h : g.Inv) (hw : g.winner T = some w)
    (ht : g.term w = T) (hl : g.leaderLog T = g.log w) (he : Stamped.term e = T) :
    (g.create w T e).Inv := by
  have hG : Grows g (g.create w T e) := h.grows (.create hw ht hl he)
  have hpl : ∀ {v T' k}, g.Pledge v T' k → (g.create w T e).Pledge v T' k := fun hp ↦
    hG.pledge hp (h.create_guard hG hw ht he hp.guard) fun y hy hyn ↦ absurd hy hyn
  constructor
  case nonneg => exact h.nonneg
  case unelected =>
    intro U hU
    have hne : U ≠ T := by
      rintro rfl
      exact Option.some_ne_none w (hw.symm.trans hU)
    rw [create_leaderLog_of_ne g hne]
    exact h.unelected U hU
  case matching =>
    intro U k x hx
    rcases create_cases hx with hx' | ⟨rfl, rfl, rfl⟩
    · have hag := h.matching U k x hx'
      have hx'' : (g.leaderLog (Stamped.term x))[k]? = some x :=
        (hag k (Nat.zero_le _) (by omega)) ▸ hx'
      exact ((hG.agree (List.getElem?_eq_some_iff.mp hx').1 0).symm).trans
        (hag.trans (hG.agree (List.getElem?_eq_some_iff.mp hx'').1 0))
    · rw [he]
      exact fun _ _ _ ↦ rfl
  case term_le =>
    intro U x hx
    obtain ⟨k, hk⟩ := List.mem_iff_getElem?.mp hx
    rcases create_cases hk with hk' | ⟨rfl, -, rfl⟩
    · exact h.term_le U x (List.mem_of_getElem? hk')
    · exact he.le
  case chain => exact fun v k x hk hx ↦ h.create_chain hG hl he hk hx
  case tail_term =>
    intro v x hx
    by_cases hv : v = w
    · subst hv
      have hx' : x ∈ g.tail v ++ [e] := by simpa [Ledger.create] using hx
      rcases List.mem_append.mp hx' with hx' | hx'
      · exact h.tail_term v x hx'
      · rw [List.mem_singleton.mp hx', he]
        exact ht.ge
    · exact h.tail_term v x (by simpa [Ledger.create, Function.update_of_ne hv] using hx)
  case past_sealed => exact fun v ↦ hG.sealed_mono h le_rfl (h.past_sealed v)
  case vote_term => exact h.vote_term
  case backed =>
    intro U x hx
    obtain ⟨Q, hQ, lt, li, hv, hlt, hli, hend⟩ := h.backed U x hx
    refine ⟨Q, hQ, lt, li, hv, hlt, hli.trans (hG.length_le U), ?_⟩
    rw [← (hG.agree hli 0).take_eq]
    exact hend
  case own =>
    intro U x k hx hh
    rcases create_has hh with hh | ⟨rfl, rfl⟩
    · exact hpl (h.own U x k hx hh)
    · obtain rfl : w = x := Option.some_inj.mp (hw.symm.trans hx)
      refine ⟨ht.ge, Or.inl ?_, fun y hy hyv hUy ↦ ?_⟩
      · rw [create_log_self, endTerm_concat, he, List.length_append, List.length_singleton, hl]
        exact Or.inr ⟨rfl, Nat.lt_succ_self _⟩
      · have := h.vote_term y hy
        rw [hyv] at this
        omega
  case acked =>
    intro v U m hm
    refine h.acked_of_grows hG hpl hm fun k hk hh ↦ ?_
    rcases create_has hh with hh | ⟨rfl, rfl⟩
    · exact hh
    · exact absurd (h.acked v U m hm).2.1 (by omega)
  case committed => exact fun U k hc ↦ h.committed_of_grows hG hpl hc

end Create

/-! ### Elections -/

omit [DecidableEq S] in
/-- A term without a winner has left no entry behind. -/
theorem term_ne_of_unelected (h : g.Inv) {T : ℤ} (hw : g.winner T = none) {v : S} {k : ℕ} {e : E}
    (he : (g.log v)[k]? = some e) : Stamped.term e ≠ T := by
  rintro rfl
  have := h.log_mem_leaderLog he
  rw [h.unelected _ hw] at this
  simp at this

omit [DecidableEq S] in
/-- Neither have the leaders. -/
theorem leaderLog_term_ne (h : g.Inv) {T : ℤ} (hw : g.winner T = none) {U : ℤ} {k : ℕ} {e : E}
    (he : (g.leaderLog U)[k]? = some e) : Stamped.term e ≠ T := by
  rintro rfl
  have := h.matching U k e he k (Nat.zero_le _) (by omega)
  rw [he, h.unelected _ hw] at this
  simp at this

/-- **The winner of an election has no gap between its past and its tail.**  Its past is committed,
a majority stands for that, and the vote of one of them says that the log of the winner compares
at least as high: so the leader of the term it ends in has that past too. -/
theorem winner_log (h : g.Inv) {w : S} {T : ℤ} {Q : Finset S} (ht : g.term w = T)
    (hw : g.winner T = none) (hQ : Majority Q)
    (hv : ∀ v ∈ Q, v = w ∨ ⟨v, w, T, endTerm (g.log w), (g.log w).length⟩ ∈ g.votes)
    {k : ℕ} {e : E} (he : (g.log w)[k]? = some e) :
    Agree 0 (k + 1) (g.log w) (g.leaderLog (Stamped.term e)) := by
  have hk := (List.getElem?_eq_some_iff.mp he).1
  -- it is enough to compare with the leader of the term the log ends in
  obtain ⟨i, hi⟩ : ∃ i, (g.log w).length = i + 1 := ⟨(g.log w).length - 1, by omega⟩
  obtain ⟨l, hl⟩ : ∃ l, (g.log w)[i]? = some l := ⟨_, List.getElem?_eq_getElem (by omega)⟩
  have hend := endTerm_of_getElem? hl hi
  have htip := h.log_mem_leaderLog hl
  have hlast : Agree 0 (i + 1) (g.log w) (g.leaderLog (Stamped.term l)) := by
    intro j hj hji
    rcases Nat.lt_or_ge j (g.snap w) with hjs | hjs
    swap
    · exact h.chain w i l (by omega) hl j hjs hji
    rcases h.past_sealed w with h0 | ⟨U, c, hc, hUw, hsc, hag⟩
    · omega
    obtain ⟨hU, R, hR, hpl⟩ := h.committed U c hc
    have hUT : U < T := by
      rcases Int.lt_or_eq_of_le (ht ▸ hUw) with hlt | rfl
      · exact hlt
      · exact absurd hw (h.winner_of_has hU)
    obtain ⟨v, hvQ, hvR⟩ := hQ.meet hR
    have hno : ∀ V, U < V → ¬ g.Lacks V U c := fun V hV hl ↦
      hl.2 (h.has_of_commit hc V hV hl.1)
    have hahead : Ahead (endTerm (g.log w)) (g.log w).length U c := by
      rcases hv v hvQ with rfl | hvote
      · rcases (hpl v hvR).guard with ha | ⟨V, h1, -, h3⟩
        · exact ha
        · exact absurd h3 (hno V h1)
      · rcases (hpl v hvR).votes _ hvote rfl hUT with ha | ⟨V, h1, -, h3⟩
        · exact ha
        · exact absurd h3 (hno V h1)
    have hle : U ≤ Stamped.term l := by
      rw [hend, Ahead] at hahead
      omega
    have hag' := h.agree_of_commit hc hle (h.winner_of_has ⟨l, htip, rfl⟩)
    have hpast : (g.log w)[j]? = (g.past w)[j]? := by
      rw [log, List.getElem?_append_left hjs]
    rw [hpast, hag j hj hjs]
    exact hag' j hj (by omega)
  have hkl : (g.leaderLog (Stamped.term l))[k]? = some e :=
    (hlast k (Nat.zero_le _) (by omega)) ▸ he
  exact (hlast.mono le_rfl (by omega)).trans (h.matching _ k e hkl)

section Elect

variable {w : S} {T : ℤ}

omit [DecidableEq S] in
/-- A new leader's log has no entry of its term yet. -/
theorem elect_has (h : g.Inv) (hw : g.winner T = none) {U : ℤ} {k : ℕ}
    (hh : (g.elect w T).Has U U k) : g.Has U U k := by
  obtain ⟨e, he, hte⟩ := hh
  by_cases hU : U = T
  · subst hU
    rw [elect_leaderLog_self] at he
    exact absurd hte (h.term_ne_of_unelected hw he)
  · rw [elect_leaderLog_of_ne g hU] at he
    exact ⟨e, he, hte⟩

omit [DecidableEq S] [Fintype S] in
/-- The vote that a candidate casts for itself is in line with what it stands for. -/
theorem elect_pledge (hG : Grows g (g.elect w T)) (ht : g.term w = T)
    (hw : g.winner T = none) {v : S} {U : ℤ} {k : ℕ} (hp : g.Pledge v U k) :
    (g.elect w T).Pledge v U k := by
  refine hG.pledge hp (hG.guard_of_log rfl hp.guard) fun y hy hyn hyv hUy ↦ ?_
  obtain rfl := (Set.mem_insert_iff.mp hy).resolve_right hyn
  subst hyv
  rcases hp.guard with ha | ⟨V, h1, h2, h3⟩
  · exact Or.inl ha
  · refine Or.inr ⟨V, h1, ?_, hG.lacks h1 h3⟩
    have hVT : V ≠ T := fun hVT ↦ h3.1 (hVT ▸ hw)
    simp only at h2 ⊢
    omega

omit [DecidableEq S] in
/-- The new leader is backed by the votes it has got and its own. -/
theorem elect_backed (h : g.Inv) {Q : Finset S} (ht : g.term w = T) (hw : g.winner T = none)
    (h0 : 0 ≤ T) (hQ : Majority Q)
    (hv : ∀ v ∈ Q, v = w ∨ ⟨v, w, T, endTerm (g.log w), (g.log w).length⟩ ∈ g.votes) :
    ∃ Q : Finset S, Majority Q ∧ ∃ lt li, (∀ v ∈ Q, ⟨v, w, T, lt, li⟩ ∈ (g.elect w T).votes) ∧
      lt < T ∧ li ≤ ((g.elect w T).leaderLog T).length ∧
        endTerm (((g.elect w T).leaderLog T).take li) = lt := by
  refine ⟨Q, hQ, endTerm (g.log w), (g.log w).length, fun v hvQ ↦ ?_, ?_, ?_, ?_⟩
  · rcases hv v hvQ with rfl | hvote
    · exact Set.mem_insert _ _
    · exact Set.mem_insert_of_mem _ hvote
  · by_contra hcon
    obtain ⟨i, e, -, hie, hte⟩ := exists_last (l := g.log w) (by omega)
    have h1 := h.log_term_le (List.mem_of_getElem? hie)
    have h2 := h.term_ne_of_unelected hw hie
    omega
  · rw [elect_leaderLog_self]
  · rw [elect_leaderLog_self, List.take_length]

theorem elect (h : g.Inv) {Q : Finset S} (ht : g.term w = T)
    (hw : g.winner T = none) (h0 : 0 ≤ T) (hQ : Majority Q)
    (hv : ∀ v ∈ Q, v = w ∨ ⟨v, w, T, endTerm (g.log w), (g.log w).length⟩ ∈ g.votes) :
    (g.elect w T).Inv := by
  have hG : Grows g (g.elect w T) := h.grows (.elect ht hw h0 hQ hv)
  have hpl : ∀ {v U k}, g.Pledge v U k → (g.elect w T).Pledge v U k := elect_pledge hG ht hw
  constructor
  case nonneg =>
    intro U hU
    by_cases hUT : U = T
    · exact hUT ▸ h0
    · rw [elect_winner_of_ne g hUT] at hU
      exact h.nonneg U hU
  case unelected =>
    intro U hU
    have hUT : U ≠ T := by
      rintro rfl
      exact Option.some_ne_none w ((elect_winner_self g).symm.trans hU)
    rw [elect_winner_of_ne g hUT] at hU
    rw [elect_leaderLog_of_ne g hUT]
    exact h.unelected U hU
  case matching =>
    intro U k e he
    by_cases hU : U = T
    · subst hU
      rw [elect_leaderLog_self] at he ⊢
      rw [elect_leaderLog_of_ne g (h.term_ne_of_unelected hw he)]
      exact h.winner_log ht hw hQ hv he
    · rw [elect_leaderLog_of_ne g hU] at he ⊢
      rw [elect_leaderLog_of_ne g (h.leaderLog_term_ne hw he)]
      exact h.matching U k e he
  case term_le =>
    intro U e he
    by_cases hU : U = T
    · subst hU
      rw [elect_leaderLog_self] at he
      exact ht ▸ h.log_term_le he
    · rw [elect_leaderLog_of_ne g hU] at he
      exact h.term_le U e he
  case chain =>
    intro v k e hk he
    rw [elect_leaderLog_of_ne g (h.term_ne_of_unelected hw (v := v) he)]
    exact h.chain v k e hk he
  case tail_term => exact h.tail_term
  case past_sealed => exact fun v ↦ hG.sealed_mono h le_rfl (h.past_sealed v)
  case vote_term =>
    intro y hy
    rcases Set.mem_insert_iff.mp hy with rfl | hy
    · exact ht.ge
    · exact h.vote_term y hy
  case backed =>
    intro U x hx
    by_cases hU : U = T
    · subst hU
      obtain rfl : w = x := Option.some_inj.mp ((elect_winner_self g).symm.trans hx)
      exact h.elect_backed ht hw h0 hQ hv
    · rw [elect_winner_of_ne g hU] at hx
      obtain ⟨R, hR, lt, li, hvotes, hrest⟩ := h.backed U x hx
      refine ⟨R, hR, lt, li, fun v hvR ↦ Set.mem_insert_of_mem _ (hvotes v hvR), ?_⟩
      rw [elect_leaderLog_of_ne g hU]
      exact hrest
  case own =>
    intro U x k hx hh
    have hh' := h.elect_has hw hh
    have hU : U ≠ T := fun hU ↦ h.winner_of_has hh' (hU ▸ hw)
    rw [elect_winner_of_ne g hU] at hx
    exact hpl (h.own U x k hx hh')
  case acked =>
    exact fun v U m hm ↦ h.acked_of_grows hG hpl hm fun k _ hh ↦ h.elect_has hw hh
  case committed => exact fun U k hc ↦ h.committed_of_grows hG hpl hc

end Elect

/-! ### Every move -/

/-- **Every move preserves the invariant.** -/
theorem step (h : g.Inv) (hm : Move g g') : g'.Inv := by
  cases hm with
  | bump hT => exact h.bump hT
  | castVote ht hw hu => exact h.castVote ht hw hu
  | elect ht hw h0 hQ hv => exact h.elect ht hw h0 hQ hv
  | create hw ht hl he => exact h.create hw ht hl he
  | adopt ht hw hm ha => exact h.adopt ht hw hm ha
  | install ht hw hs hm hc => exact h.install ht hw hs hm hc
  | compact hs hm hc => exact h.compact hs hm hc
  | commit hT hnew hQ hv => exact h.commit hT hnew hQ hv

/-- **What a server knows to be committed stays in its log.** -/
theorem sealed_step (h : g.Inv) (hm : Move g g') {v : S} {c : ℕ}
    (hs : g.Sealed (g.term v) (g.log v) c) : g'.Sealed (g'.term v) (g'.log v) c := by
  have hG := h.grows hm
  -- it is enough that the first `c` entries of the log are what they were
  suffices hag : Agree 0 c (g'.log v) (g.log v) by
    rcases hs with h0 | ⟨T, k, hc, hT, hck, hag'⟩
    · exact Or.inl h0
    · exact hG.sealed_mono h (hG.term v) (Or.inr ⟨T, k, hc, hT, hck, hag.trans hag'⟩)
  have hlen : c ≤ (g.log v).length := h.length_of_sealed hs
  have hsame : g'.log v = g.log v → Agree 0 c (g'.log v) (g.log v) := fun hlog ↦ by
    rw [hlog]
    exact fun _ _ _ ↦ rfl
  cases hm with
  | bump | castVote | elect | commit => exact hsame rfl
  | @create w T e hw ht hl he =>
    by_cases hv : v = w
    · subst hv
      rw [create_log_self]
      exact Agree.of_append hlen
    · exact hsame (create_log_of_ne g hv)
  | @adopt x T m tl ht hw hm ha =>
    by_cases hv : v = x
    swap
    · exact hsame (adopt_log_of_ne g hv)
    subst hv
    rw [adopt_log_self]
    rcases ha with ⟨rfl, -⟩ | ⟨k, hsk, hkm, -, hcut, hnew⟩
    · exact fun _ _ _ ↦ rfl
    · have hck : c ≤ k := by
        rcases hcut with rfl | ⟨hk, hne⟩
        · exact hlen
        · by_contra hcon
          exact hne (h.agree_of_sealed hs ht.le hw k (Nat.zero_le _) (by omega))
      intro j _ hj
      rw [adopt_getElem? (by omega) hnew, if_pos (by omega)]
  | @install x T s ht hw hsn hm hc =>
    by_cases hv : v = x
    swap
    · exact hsame (install_log_of_ne g hv)
    subst hv
    intro j hj hjc
    rw [install_getElem? hsn hm]
    split
    · exact (h.agree_of_sealed hs ht.le hw j hj hjc).symm
    · rfl
  | compact hsn => exact hsame (compact_log g hsn)

end Inv

end Ledger
