import DistLabs.Lib.LedgerStep

/-!
# Acknowledgements are kept

A server that has acknowledged entries of the leader of `T` holds them for as long as it stays in
that term, and beyond that for as long as no leader of a later term it has heard of has something
else in their place (`Kept`).  In particular it holds for good what is committed
(`Kept.agree_of_sealed`).
-/

set_option autoImplicit false

universe u v

namespace Ledger

variable {S : Type u} {E : Type v} [Stamped E]

/-- A leader of a term after `T` that `v` may have heard of differs from the leader of `T` at
position `k` or before. -/
def Strays (g : Ledger S E) (v : S) (T : ℤ) (k : ℕ) : Prop :=
  ∃ U, T < U ∧ U ≤ g.term v ∧ g.winner U ≠ none ∧
    ¬ Agree 0 (k + 1) (g.leaderLog U) (g.leaderLog T)

/-- Whoever has acknowledged an entry holds it, unless a later leader strays from it. -/
def Kept (g : Ledger S E) : Prop :=
  ∀ v T m, (v, T, m) ∈ g.acks → ∀ k < m,
    Agree 0 (k + 1) (g.log v) (g.leaderLog T) ∨ g.Strays v T k

namespace Kept

variable [Fintype S] {g g' : Ledger S E}

/-- A later leader that strays does so for good: what it writes is of its own term. -/
theorem strays_mono (hi : g.Inv) (hG : Grows g g') {v : S} {T : ℤ} {k : ℕ}
    (hk : k < (g.leaderLog T).length) (hs : g.Strays v T k) : g'.Strays v T k := by
  obtain ⟨U, hTU, hU, hw, hno⟩ := hs
  refine ⟨U, hTU, hU.trans (hG.term v), hG.winner_ne hw, fun hag ↦ hno fun j h0 hj ↦ ?_⟩
  have he : (g.leaderLog T)[j]? = some _ := List.getElem?_eq_getElem (by omega)
  have hU' := (hag j h0 hj).trans (hG.getElem? he)
  obtain ⟨ext, hext, hterm⟩ := hG.leaderLog U
  rw [hext] at hU'
  rcases Nat.lt_or_ge j (g.leaderLog U).length with hlt | hge
  · rw [List.getElem?_append_left hlt] at hU'
    rw [hU', he]
  · rw [List.getElem?_append_right hge] at hU'
    have h1 := hterm hw _ (List.mem_of_getElem? hU')
    have h2 := hi.term_le T _ (List.mem_of_getElem? he)
    omega

/-- What a move has to account for: the logs of those who have acknowledged something, and new
acknowledgements. -/
theorem carry (h : g.Kept) (hi : g.Inv) (hG : Grows g g')
    (hold : ∀ v T m, (v, T, m) ∈ g.acks → ∀ k < m, Agree 0 (k + 1) (g.log v) (g.leaderLog T) →
      Agree 0 (k + 1) (g'.log v) (g.leaderLog T) ∨ g.Strays v T k)
    (hnew : ∀ v T m, (v, T, m) ∈ g'.acks → (v, T, m) ∉ g.acks →
      Agree 0 m (g'.log v) (g'.leaderLog T)) : g'.Kept := by
  intro v T m hm k hk
  by_cases hack : (v, T, m) ∈ g.acks
  swap
  · exact Or.inl ((hnew v T m hm hack).mono le_rfl hk)
  have hlen := (hi.acked v T m hack).2.1
  have hkeep : Agree 0 (k + 1) (g'.log v) (g.leaderLog T) ∨ g.Strays v T k := by
    rcases h v T m hack k hk with hag | hs
    · exact hold v T m hack k hk hag
    · exact Or.inr hs
  rcases hkeep with hag | hs
  · exact Or.inl (hag.trans (hG.agree (by omega) 0))
  · exact Or.inr (strays_mono hi hG (by omega) hs)

/-- A move that leaves every log and the acknowledgements as they are. -/
theorem of_log_eq (h : g.Kept) (hi : g.Inv) (hG : Grows g g') (hlog : ∀ v, g'.log v = g.log v)
    (hacks : g'.acks = g.acks) : g'.Kept :=
  h.carry hi hG (fun v _ _ _ _ _ hag ↦ Or.inl (hlog v ▸ hag))
    fun _ _ _ hm hno ↦ absurd (hacks ▸ hm) hno

/-- A follower of the leader of `U` that holds an acknowledged entry holds it in the leader's log
too, or the leader strays. -/
theorem agree_leader (hi : g.Inv) {v : S} {T U : ℤ} {m k : ℕ} (hack : (v, T, m) ∈ g.acks)
    (hU : g.term v = U) (hw : g.winner U ≠ none)
    (hag : Agree 0 (k + 1) (g.log v) (g.leaderLog T)) :
    (Agree 0 (k + 1) (g.leaderLog U) (g.leaderLog T) ∧
      Agree 0 (k + 1) (g.log v) (g.leaderLog U)) ∨ g.Strays v T k := by
  by_cases hsame : Agree 0 (k + 1) (g.leaderLog U) (g.leaderLog T)
  · exact Or.inl ⟨hsame, hag.trans hsame.symm⟩
  · have hle := (hi.acked v T m hack).1
    refine Or.inr ⟨U, ?_, hU.ge, hw, hsame⟩
    rcases eq_or_lt_of_le (hU ▸ hle) with rfl | hlt
    · exact absurd (fun _ _ _ ↦ rfl) hsame
    · exact hlt

variable [DecidableEq S]

theorem create (h : g.Kept) (hi : g.Inv) {w : S} {T : ℤ} {e : E} (hw : g.winner T = some w)
    (ht : g.term w = T) (hl : g.leaderLog T = g.log w) (he : Stamped.term e = T) :
    (g.create w T e).Kept := by
  refine h.carry hi (hi.grows (.create hw ht hl he)) (fun v U m hack k hk hag ↦ Or.inl ?_)
    fun _ _ _ hm hno ↦ absurd hm hno
  by_cases hv : v = w
  swap
  · rwa [create_log_of_ne g hv]
  subst hv
  have hlen := hag.length_le (by have := (hi.acked v U m hack).2.1; omega)
  rw [create_log_self]
  exact (Agree.of_append hlen).trans hag

theorem adopt (h : g.Kept) (hi : g.Inv) {v : S} {T : ℤ} {m : ℕ} {tl : List E} (ht : g.term v = T)
    (hw : g.winner T ≠ none) (hm : m ≤ (g.leaderLog T).length) (ha : g.Adopts v T m tl) :
    (g.adopt v T m tl).Kept := by
  refine h.carry hi (hi.grows (.adopt ht hw hm ha)) (fun u U j hack k hk hag ↦ ?_)
    fun u U j hnew hno ↦ ?_
  · by_cases hu : u = v
    swap
    · exact Or.inl (adopt_log_of_ne g hu ▸ hag)
    subst hu
    rcases agree_leader hi hack ht hw hag with ⟨hsame, hlead⟩ | hs
    swap
    · exact Or.inr hs
    refine Or.inl ?_
    rw [adopt_log_self]
    rcases ha with ⟨rfl, -⟩ | ⟨c, -, -, -, hcut, hnew⟩
    · exact hag
    -- the log is cut beyond what it shares with the leader
    have hlen := hag.length_le (by have := (hi.acked u U j hack).2.1; omega)
    have hkc : k < c := by
      by_contra hcon
      rcases hcut with rfl | ⟨-, hdiff⟩
      · omega
      · exact hdiff (hlead c (Nat.zero_le _) (by omega))
    have hget := Inv.adopt_getElem? (by rcases hcut with rfl | ⟨hlt, -⟩ <;> omega) hnew
    intro i h0 hi'
    rw [hget, if_pos (by omega)]
    exact hag i h0 hi'
  · -- the new acknowledgement
    obtain ⟨rfl, rfl, rfl⟩ : u = v ∧ U = T ∧ j = m := by
      rcases Set.mem_insert_iff.mp hnew with heq | hold
      · simpa using heq
      · exact absurd hold hno
    rw [adopt_log_self]
    intro i h0 hij
    change _ = (g.leaderLog U)[i]?
    rcases Nat.lt_or_ge i (g.snap u) with hlt | hge
    · rw [← hi.past_agree ht.le hw i h0 hlt, log, List.getElem?_append_left hlt,
        List.getElem?_append_left hlt]
    · exact Inv.adopts_agree ha i hge hij

theorem install (h : g.Kept) (hi : g.Inv) {v : S} {T : ℤ} {s : ℕ} (ht : g.term v = T)
    (hw : g.winner T ≠ none) (hs : g.snap v < s) (hm : s ≤ (g.leaderLog T).length)
    (hc : g.Sealed T (g.leaderLog T) s) : (g.install v T s).Kept := by
  refine h.carry hi (hi.grows (.install ht hw hs hm hc)) (fun u U j hack k hk hag ↦ ?_)
    fun _ _ _ hnew hno ↦ absurd hnew hno
  by_cases hu : u = v
  swap
  · exact Or.inl (install_log_of_ne g hu ▸ hag)
  subst hu
  rcases agree_leader hi hack ht hw hag with ⟨hsame, -⟩ | hs'
  swap
  · exact Or.inr hs'
  refine Or.inl fun i h0 hi' ↦ ?_
  rw [Inv.install_getElem? hs hm]
  split
  · exact hsame i h0 hi'
  · exact hag i h0 hi'

/-- **Every move keeps what was acknowledged.** -/
theorem step (h : g.Kept) (hi : g.Inv) (hm : Move g g') : g'.Kept := by
  have hG := hi.grows hm
  cases hm with
  | bump | castVote | elect | commit => exact h.of_log_eq hi hG (fun _ ↦ rfl) rfl
  | create hw ht hl he => exact h.create hi hw ht hl he
  | adopt ht hw hm ha => exact h.adopt hi ht hw hm ha
  | install ht hw hs hm hc => exact h.install hi ht hw hs hm hc
  | compact hs => exact h.of_log_eq hi hG (fun _ ↦ compact_log g hs) rfl

/-! ## What it says -/

omit [Stamped E] [Fintype S] [DecidableEq S] in
/-- A server in the term of its acknowledgement holds what it acknowledged. -/
theorem agree_of_term (h : g.Kept) {v : S} {T : ℤ} {m : ℕ} (hack : (v, T, m) ∈ g.acks)
    (ht : g.term v ≤ T) : Agree 0 m (g.log v) (g.leaderLog T) := by
  intro k h0 hk
  rcases h v T m hack k hk with hag | ⟨U, hTU, hU, -⟩
  · exact hag k h0 (Nat.lt_succ_self k)
  · omega

/-- What was acknowledged and is committed is held for good. -/
theorem agree_of_sealed (h : g.Kept) (hi : g.Inv) {v : S} {T : ℤ} {m c : ℕ}
    (hack : (v, T, m) ∈ g.acks) (hw : g.winner T ≠ none) {l : List E} (hs : g.Sealed T l c)
    (hc : c ≤ m) : Agree 0 c (g.log v) (g.leaderLog T) := by
  intro k h0 hk
  rcases h v T m hack k (by omega) with hag | ⟨U, hTU, -, hwU, hno⟩
  · exact hag k h0 (Nat.lt_succ_self k)
  · have h1 := hi.agree_of_sealed hs le_rfl hw
    have h2 := hi.agree_of_sealed hs hTU.le hwU
    exact absurd ((h2.symm.trans h1).mono le_rfl hk) hno

end Kept

end Ledger
