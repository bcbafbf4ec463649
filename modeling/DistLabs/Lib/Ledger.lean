import DistLabs.Lib.Quorum
import Mathlib.Data.Set.Insert
import Mathlib.Data.Int.Basic
import Mathlib.Logic.Function.Basic
import Mathlib.Tactic.Tauto

/-!
# Leader logs: replication with compaction, abstractly

A protocol in which servers elect a leader for a term by majority vote, the leader of a term
writes a log that only grows, and every other log is copied from the leaders'.  Servers may forget
a prefix of their log once it is committed, and may be handed such a prefix by a leader while they
keep *whatever they had beyond it* — so a server's log falls into a `past`, which is a committed
prefix, and a `tail`, which is a piece of some leader's log, and nothing says that the one
continues the other.

The state records the history as well: for each term the winner of its election and the log it
wrote, every vote with the position of the candidate's log it was cast on, every acknowledgement
and every commit.  Positions count from `0`; a commit `(T, k)` says that the first `k + 1` entries
of the log of term `T` are committed, the last of which was written in term `T` itself.

What makes the argument go through is a *pledge*: a server that holds position `k` of the log of
term `T` compares, from then on, at least as high as `(T, k)` in every vote it casts — unless some
later leader was elected that lacks the entry.  A pledge is stable under every move
(`Inv.step`), and a majority of pledges rules out the exception (`Inv.has_of_commit`).
-/

set_option autoImplicit false

universe u v

/-- Entries carry the term they were written in. -/
class Stamped (E : Type v) where
  /-- The term of an entry. -/
  term : E → ℤ

export Stamped (term)

namespace Ledger

variable {S : Type u} {E : Type v}

/-! ## Logs -/

/-- Two logs have the same entries at the positions from `a` up to `b`. -/
def Agree (a b : ℕ) (l l' : List E) : Prop := ∀ k, a ≤ k → k < b → l[k]? = l'[k]?

theorem Agree.symm {a b : ℕ} {l l' : List E} (h : Agree a b l l') : Agree a b l' l :=
  fun k ha hb ↦ (h k ha hb).symm

theorem Agree.trans {a b : ℕ} {l l' l'' : List E} (h : Agree a b l l') (h' : Agree a b l' l'') :
    Agree a b l l'' :=
  fun k ha hb ↦ (h k ha hb).trans (h' k ha hb)

theorem Agree.mono {a b a' b' : ℕ} {l l' : List E} (h : Agree a b l l') (ha : a ≤ a')
    (hb : b' ≤ b) : Agree a' b' l l' :=
  fun k hk hk' ↦ h k (ha.trans hk) (hk'.trans_le hb)

theorem Agree.of_append {a b : ℕ} {l ext : List E} (hb : b ≤ l.length) :
    Agree a b (l ++ ext) l :=
  fun _ _ hk ↦ List.getElem?_append_left (hk.trans_le hb)

/-- A log that agrees with one of length at least `b` has that length itself. -/
theorem Agree.length_le {b : ℕ} {l l' : List E} (h : Agree 0 b l l') (hb : b ≤ l'.length) :
    b ≤ l.length := by
  by_contra hlt
  have hk := h l.length (Nat.zero_le _) (by omega)
  rw [List.getElem?_eq_none (Nat.le_refl _), eq_comm, List.getElem?_eq_none_iff] at hk
  omega

theorem Agree.take_eq {b : ℕ} {l l' : List E} (h : Agree 0 b l l') : l.take b = l'.take b := by
  refine List.ext_getElem? fun k ↦ ?_
  rw [List.getElem?_take, List.getElem?_take]
  split
  · next hk => exact h k (Nat.zero_le _) hk
  · rfl

variable [Stamped E]

/-- The term a log ends in; `-1` for the empty log. -/
def endTerm (l : List E) : ℤ := (l.getLast?.map term).getD (-1)

@[simp] theorem endTerm_nil : endTerm ([] : List E) = -1 := rfl

@[simp] theorem endTerm_concat (l : List E) (e : E) : endTerm (l ++ [e]) = term e := by
  simp [endTerm]

theorem endTerm_of_getElem? {l : List E} {k : ℕ} {e : E} (h : l[k]? = some e)
    (hk : l.length = k + 1) : endTerm l = term e := by
  rw [endTerm, List.getLast?_eq_getElem?, hk, Nat.add_sub_cancel, h]
  rfl

/-- A log that does not end in `-1` has a last entry. -/
theorem exists_last {l : List E} (h : 0 ≤ endTerm l) :
    ∃ k e, l.length = k + 1 ∧ l[k]? = some e ∧ term e = endTerm l := by
  rcases List.eq_nil_or_concat l with rfl | ⟨l', e, rfl⟩
  · simp at h
  · exact ⟨l'.length, e, by simp, by simp, by simp⟩

/-- A log ending in term `lt` at length `li` compares at least as high as position `k` of term
`T`. -/
def Ahead (lt : ℤ) (li : ℕ) (T : ℤ) (k : ℕ) : Prop := T < lt ∨ lt = T ∧ k < li

/-- The comparison of a vote: the log ending in `(lt, li)` is at least as up to date as the one
ending in `(lt', li')`. -/
def UpToDate (lt : ℤ) (li : ℕ) (lt' : ℤ) (li' : ℕ) : Prop := lt' < lt ∨ lt = lt' ∧ li' ≤ li

theorem Ahead.of_upToDate {lt lt' T : ℤ} {li li' k : ℕ} (h : Ahead lt' li' T k)
    (hu : UpToDate lt li lt' li') : Ahead lt li T k := by
  rw [Ahead] at h ⊢
  rw [UpToDate] at hu
  omega

/-! ## The state -/

/-- A vote, with the end of the candidate's log it was cast on. -/
@[ext] structure Vote (S : Type u) where
  /-- Who voted. -/
  voter : S
  /-- For whom. -/
  candidate : S
  /-- In which term. -/
  term : ℤ
  /-- The term the candidate's log ended in. -/
  lastTerm : ℤ
  /-- The length of the candidate's log. -/
  lastIndex : ℕ

end Ledger

/-- The state of the protocol and its history. -/
structure Ledger (S : Type u) (E : Type v) where
  /-- Each server's term. -/
  term : S → ℤ
  /-- The prefix of its log a server has compacted. -/
  past : S → List E
  /-- The rest of its log. -/
  tail : S → List E
  /-- The log the leader of a term has written so far, its inherited prefix included. -/
  leaderLog : ℤ → List E
  /-- Who won the election of a term. -/
  winner : ℤ → Option S
  /-- The votes cast before the election of their term was decided. -/
  votes : Set (Ledger.Vote S)
  /-- `(v, T, m)`: server `v` told the leader of `T` that it holds its first `m` entries. -/
  acks : Set (S × ℤ × ℕ)
  /-- `(T, k)`: the leader of `T` committed position `k`. -/
  commits : Set (ℤ × ℕ)

namespace Ledger

variable {S : Type u} {E : Type v}

/-- A server's whole log. -/
def log (g : Ledger S E) (v : S) : List E := g.past v ++ g.tail v

/-- How much of it is compacted. -/
def snap (g : Ledger S E) (v : S) : ℕ := (g.past v).length

variable [Stamped E]

/-- The log of term `U` has, at position `k`, an entry of term `T`. -/
def Has (g : Ledger S E) (U T : ℤ) (k : ℕ) : Prop :=
  ∃ e, (g.leaderLog U)[k]? = some e ∧ Stamped.term e = T

/-- Term `U` has a leader, whose log does not. -/
def Lacks (g : Ledger S E) (U T : ℤ) (k : ℕ) : Prop := g.winner U ≠ none ∧ ¬ g.Has U T k

/-- `v` compares at least as high as `(T, k)`, or a leader it may have heard lacks `(T, k)`. -/
def Guard (g : Ledger S E) (v : S) (T : ℤ) (k : ℕ) : Prop :=
  Ahead (endTerm (g.log v)) (g.log v).length T k ∨ ∃ U, T < U ∧ U ≤ g.term v ∧ g.Lacks U T k

/-- What a server that holds position `k` of the log of term `T` stands for: now, and in every
vote it has cast since. -/
structure Pledge (g : Ledger S E) (v : S) (T : ℤ) (k : ℕ) : Prop where
  /-- The server has reached the term. -/
  term_le : T ≤ g.term v
  /-- It compares high enough. -/
  guard : g.Guard v T k
  /-- And so did every candidate it voted for in a later term. -/
  votes : ∀ x ∈ g.votes, x.voter = v → T < x.term →
    Ahead x.lastTerm x.lastIndex T k ∨ ∃ U, T < U ∧ U < x.term ∧ g.Lacks U T k

/-- The first `c` entries of `l` are committed, by a leader of term at most `U`. -/
def Sealed (g : Ledger S E) (U : ℤ) (l : List E) (c : ℕ) : Prop :=
  c = 0 ∨ ∃ T k, (T, k) ∈ g.commits ∧ T ≤ U ∧ c ≤ k + 1 ∧ Agree 0 c l (g.leaderLog T)

omit [Stamped E] in
theorem Sealed.mono_right {g : Ledger S E} {U : ℤ} {l : List E} {c c' : ℕ} (h : g.Sealed U l c)
    (hc : c' ≤ c) : g.Sealed U l c' := by
  rcases h with rfl | ⟨T, k, hcom, hT, hck, hag⟩
  · exact Or.inl (Nat.le_zero.mp hc)
  · exact Or.inr ⟨T, k, hcom, hT, hc.trans hck, hag.mono le_rfl hc⟩

omit [Stamped E] in
/-- What is sealed of one log is sealed of every log that agrees with it so far. -/
theorem Sealed.of_agree {g : Ledger S E} {U : ℤ} {l l' : List E} {c : ℕ} (h : g.Sealed U l c)
    (hag : Agree 0 c l' l) : g.Sealed U l' c := by
  rcases h with h0 | ⟨T, k, hcom, hT, hck, hag'⟩
  · exact Or.inl h0
  · exact Or.inr ⟨T, k, hcom, hT, hck, hag.trans hag'⟩

variable [Fintype S]

/-- The invariant. -/
structure Inv (g : Ledger S E) : Prop where
  /-- Elections are won in terms from `0` on. -/
  nonneg : ∀ T, g.winner T ≠ none → 0 ≤ T
  /-- A term without a winner has no log. -/
  unelected : ∀ T, g.winner T = none → g.leaderLog T = []
  /-- Up to an entry of term `T`, a leader's log is the log of term `T`. -/
  matching : ∀ U k e, (g.leaderLog U)[k]? = some e →
    Agree 0 (k + 1) (g.leaderLog U) (g.leaderLog (Stamped.term e))
  /-- A leader's log has no entry of a later term. -/
  term_le : ∀ U, ∀ e ∈ g.leaderLog U, Stamped.term e ≤ U
  /-- A server's tail, up to an entry of term `T`, is a piece of the log of term `T`. -/
  chain : ∀ v k e, g.snap v ≤ k → (g.log v)[k]? = some e →
    Agree (g.snap v) (k + 1) (g.log v) (g.leaderLog (Stamped.term e))
  /-- A server has seen the terms of its entries. -/
  tail_term : ∀ v, ∀ e ∈ g.tail v, Stamped.term e ≤ g.term v
  /-- What a server has compacted is committed. -/
  past_sealed : ∀ v, g.Sealed (g.term v) (g.past v) (g.snap v)
  /-- A server has seen the terms it voted in. -/
  vote_term : ∀ x ∈ g.votes, x.term ≤ g.term x.voter
  /-- An election is won by a majority of votes, cast on the log the leader starts from. -/
  backed : ∀ T w, g.winner T = some w → ∃ Q : Finset S, Majority Q ∧ ∃ lt li,
    (∀ v ∈ Q, ⟨v, w, T, lt, li⟩ ∈ g.votes) ∧ lt < T ∧ li ≤ (g.leaderLog T).length ∧
      endTerm ((g.leaderLog T).take li) = lt
  /-- A leader stands for its own entries. -/
  own : ∀ T w k, g.winner T = some w → g.Has T T k → g.Pledge w T k
  /-- A server stands for what it acknowledged, unless it was committed already. -/
  acked : ∀ v T m, (v, T, m) ∈ g.acks → T ≤ g.term v ∧ m ≤ (g.leaderLog T).length ∧
    ∀ k < m, g.Has T T k → g.Pledge v T k ∨ ∃ k', k ≤ k' ∧ (T, k') ∈ g.commits
  /-- A majority stands for what is committed. -/
  committed : ∀ T k, (T, k) ∈ g.commits → g.Has T T k ∧
    ∃ Q : Finset S, Majority Q ∧ ∀ v ∈ Q, g.Pledge v T k

/-! ## What the invariant says -/

namespace Inv

variable {g : Ledger S E}

theorem winner_of_has (h : g.Inv) {U T : ℤ} {k : ℕ} (hh : g.Has U T k) : g.winner U ≠ none := by
  intro hn
  obtain ⟨e, he, -⟩ := hh
  rw [h.unelected U hn] at he
  simp at he

/-- What is sealed is there. -/
theorem length_of_sealed (h : g.Inv) {U : ℤ} {l : List E} {c : ℕ}
    (hs : g.Sealed U l c) : c ≤ l.length := by
  rcases hs with rfl | ⟨T, k, hcom, hT, hck, hag⟩
  · exact Nat.zero_le _
  · obtain ⟨e, he, -⟩ := (h.committed T k hcom).1
    have := (List.getElem?_eq_some_iff.mp he).1
    exact hag.length_le (by omega)

/-- Along a leader's log terms never decrease. -/
theorem leaderLog_mono (h : g.Inv) {U : ℤ} {i j : ℕ} {e e' : E}
    (hi : (g.leaderLog U)[i]? = some e) (hj : (g.leaderLog U)[j]? = some e') (hij : i ≤ j) :
    Stamped.term e ≤ Stamped.term e' := by
  have hag := h.matching U j e' hj i (Nat.zero_le _) (by omega)
  rw [hi] at hag
  exact h.term_le _ e (List.mem_of_getElem? hag.symm)

/-- Two leader logs that share an entry agree up to it. -/
theorem agree_of_has (h : g.Inv) {U T : ℤ} {k : ℕ} (hh : g.Has U T k) :
    Agree 0 (k + 1) (g.leaderLog U) (g.leaderLog T) := by
  obtain ⟨e, he, rfl⟩ := hh
  exact h.matching U k e he

/-- **Leader completeness.**  A committed entry is in the log of every later leader.

By induction on the term.  The majority that stands for the entry meets the majority that elected
the leader in a server `v`; the exception in `v`'s pledge would be an earlier leader that lacks
the entry, so the leader's log compares at least as high as the entry, and the leader of the term
that log ends in — the term of the entry or a later one — has it. -/
theorem has_of_commit [DecidableEq S] (h : g.Inv) {T : ℤ} {k : ℕ} (hc : (T, k) ∈ g.commits) :
    ∀ U, T < U → g.winner U ≠ none → g.Has U T k := by
  obtain ⟨hTT, Q, hQ, hpledge⟩ := h.committed T k hc
  have hT0 : 0 ≤ T := h.nonneg T (h.winner_of_has hTT)
  have key : ∀ d : ℕ, ∀ U, U - T ≤ d → T < U → g.winner U ≠ none → g.Has U T k := by
    intro d
    induction d with
    | zero => intro U hd hU; omega
    | succ d ih =>
      intro U hd hTU hU
      obtain ⟨w, hw⟩ := Option.ne_none_iff_exists'.mp hU
      obtain ⟨R, hR, lt, li, hvotes, hlt, hli, hend⟩ := h.backed U w hw
      obtain ⟨v, hvQ, hvR⟩ := hQ.meet hR
      have hahead : Ahead lt li T k := by
        rcases (hpledge v hvQ).votes _ (hvotes v hvR) rfl hTU with ha | ⟨U', h1, h2, h3⟩
        · exact ha
        · exact absurd (ih U' (by simp only at h2; omega) h1 h3.1) h3.2
      have hlt0 : 0 ≤ lt := by rw [Ahead] at hahead; omega
      -- the last entry of the log the leader started from
      obtain ⟨j, e, hlen, hje, hte⟩ := exists_last (hend.symm ▸ hlt0)
      rw [List.length_take, Nat.min_eq_left hli] at hlen
      rw [List.getElem?_take, if_pos (by omega)] at hje
      rw [hend] at hte
      have hag := h.matching U j e hje
      rw [hte] at hag
      rcases hahead with ha | ⟨rfl, ha⟩
      · have hwin : g.winner lt ≠ none := by
          intro hn
          have := hag j (Nat.zero_le _) (by omega)
          rw [hje, h.unelected lt hn] at this
          simp at this
        obtain ⟨e', he', hte'⟩ := ih lt (by omega) ha hwin
        have hkj : k < j + 1 := by
          by_contra hkj
          have hje' : (g.leaderLog lt)[j]? = some e := (hag j (Nat.zero_le _) (by omega)) ▸ hje
          have := h.leaderLog_mono hje' he' (by omega)
          omega
        exact ⟨e', (hag k (Nat.zero_le _) hkj).trans he', hte'⟩
      · obtain ⟨e', he', hte'⟩ := hTT
        exact ⟨e', (hag k (Nat.zero_le _) (by omega)).trans he', hte'⟩
  intro U hTU hU
  exact key (U - T).toNat U (by omega) hTU hU

/-- A committed prefix is a prefix of the log of every leader of that term or a later one. -/
theorem agree_of_commit [DecidableEq S] (h : g.Inv) {T U : ℤ} {k : ℕ} (hc : (T, k) ∈ g.commits)
    (hTU : T ≤ U) (hU : g.winner U ≠ none) :
    Agree 0 (k + 1) (g.leaderLog T) (g.leaderLog U) := by
  rcases Int.lt_or_eq_of_le hTU with hlt | rfl
  · exact (h.agree_of_has (h.has_of_commit hc U hlt hU)).symm
  · exact fun _ _ _ ↦ rfl

/-- **Committed prefixes agree.** -/
theorem commit_agree [DecidableEq S] (h : g.Inv) {T U : ℤ} {k j : ℕ} (hc : (T, k) ∈ g.commits)
    (hc' : (U, j) ∈ g.commits) {i : ℕ} (hik : i ≤ k) (hij : i ≤ j) :
    (g.leaderLog T)[i]? = (g.leaderLog U)[i]? := by
  have hT := h.winner_of_has (h.committed T k hc).1
  have hU := h.winner_of_has (h.committed U j hc').1
  rcases Int.le_total T U with hle | hle
  · exact h.agree_of_commit hc hle hU i (Nat.zero_le _) (by omega)
  · exact (h.agree_of_commit hc' hle hT i (Nat.zero_le _) (by omega)).symm

/-- **Sealed prefixes agree.** -/
theorem sealed_agree [DecidableEq S] (h : g.Inv) {U U' : ℤ} {l l' : List E} {c c' : ℕ}
    (hs : g.Sealed U l c) (hs' : g.Sealed U' l' c') {i : ℕ} (hi : i < c) (hi' : i < c') :
    l[i]? = l'[i]? := by
  rcases hs with rfl | ⟨T, k, hc, -, hck, hag⟩
  · omega
  rcases hs' with rfl | ⟨T', k', hc', -, hck', hag'⟩
  · omega
  rw [hag i (Nat.zero_le _) hi, hag' i (Nat.zero_le _) hi',
    h.commit_agree hc hc' (by omega) (by omega)]

/-- A sealed prefix is a prefix of the log of every leader of a late enough term. -/
theorem agree_of_sealed [DecidableEq S] (h : g.Inv) {U U' : ℤ} {l : List E} {c : ℕ}
    (hs : g.Sealed U l c) (hle : U ≤ U') (hU : g.winner U' ≠ none) :
    Agree 0 c l (g.leaderLog U') := by
  rcases hs with rfl | ⟨T, k, hc, hTU, hck, hag⟩
  · exact fun _ _ hk ↦ absurd hk (Nat.not_lt_zero _)
  · exact hag.trans ((h.agree_of_commit hc (hTU.trans hle) hU).mono le_rfl hck)

/-- Every entry of a server's log stands in the log of its own term, at the same position. -/
theorem log_mem_leaderLog (h : g.Inv) {v : S} {k : ℕ} {e : E} (hk : (g.log v)[k]? = some e) :
    (g.leaderLog (Stamped.term e))[k]? = some e := by
  rcases Nat.lt_or_ge k (g.snap v) with hlt | hge
  · have hpast : (g.past v)[k]? = some e := by
      rwa [log, List.getElem?_append_left hlt] at hk
    rcases h.past_sealed v with h0 | ⟨T, j, hc, -, hcj, hag⟩
    · omega
    · have hT : (g.leaderLog T)[k]? = some e := (hag k (Nat.zero_le _) hlt) ▸ hpast
      exact (h.matching T k e hT k (Nat.zero_le _) (by omega)) ▸ hT
  · exact (h.chain v k e hge hk k hge (by omega)) ▸ hk

/-- A server's tail agrees with the log of `T` up to a position at which the two have entries of one
term. -/
theorem agree_of_term (h : g.Inv) {v : S} {T : ℤ} {k : ℕ} {e e' : E} (hk : g.snap v ≤ k)
    (he : (g.log v)[k]? = some e) (he' : (g.leaderLog T)[k]? = some e')
    (ht : Stamped.term e = Stamped.term e') :
    Agree (g.snap v) (k + 1) (g.log v) (g.leaderLog T) := by
  have h1 := h.chain v k e hk he
  rw [ht] at h1
  exact h1.trans ((h.matching T k e' he').symm.mono (Nat.zero_le _) le_rfl)

/-- What a server has compacted is in the log of every leader of a late enough term. -/
theorem past_agree [DecidableEq S] (h : g.Inv) {v : S} {T : ℤ} (hT : g.term v ≤ T)
    (hw : g.winner T ≠ none) : Agree 0 (g.snap v) (g.log v) (g.leaderLog T) := by
  have hs := h.agree_of_sealed (h.past_sealed v) hT hw
  intro k h0 hk
  rw [log, List.getElem?_append_left hk]
  exact hs k h0 hk

/-- A server has seen the terms of all entries of its log. -/
theorem log_term_le (h : g.Inv) {v : S} {e : E} (he : e ∈ g.log v) :
    Stamped.term e ≤ g.term v := by
  rcases List.mem_append.mp he with hp | ht
  · obtain ⟨k, hk⟩ := List.mem_iff_getElem?.mp hp
    have hlt : k < g.snap v := (List.getElem?_eq_some_iff.mp hk).1
    rcases h.past_sealed v with h0 | ⟨T, j, hc, hTv, hcj, hag⟩
    · omega
    · have hT : (g.leaderLog T)[k]? = some e := (hag k (Nat.zero_le _) hlt) ▸ hk
      exact (h.term_le T e (List.mem_of_getElem? hT)).trans hTv
  · exact h.tail_term v e ht

/-- A server that compares at least as high as `(T, k)`, and has heard of no leader that lacks it,
has a log that long, and its tail is the log of term `T` as far as `k`. -/
theorem ahead_spec (h : g.Inv) {v : S} {T : ℤ} {k : ℕ} (hTT : g.Has T T k)
    (hall : ∀ U, T < U → U ≤ g.term v → g.winner U ≠ none → g.Has U T k)
    (ha : Ahead (endTerm (g.log v)) (g.log v).length T k) :
    k < (g.log v).length ∧ ∀ j, g.snap v ≤ j → j ≤ k → (g.log v)[j]? = (g.leaderLog T)[j]? := by
  have hT0 : 0 ≤ T := h.nonneg T (h.winner_of_has hTT)
  obtain ⟨i, e, hlen, hie, hte⟩ := exists_last (l := g.log v) (by rw [Ahead] at ha; omega)
  rw [← hte] at ha
  have htip := h.log_mem_leaderLog hie
  have hev : Stamped.term e ≤ g.term v := h.log_term_le (List.mem_of_getElem? hie)
  have hhas : g.Has (Stamped.term e) T k := by
    rcases ha with ha | ⟨ha, -⟩
    · exact hall _ ha hev (h.winner_of_has ⟨e, htip, rfl⟩)
    · exact ha ▸ hTT
  have hk : k < (g.log v).length := by
    rcases ha with ha | ⟨-, ha⟩
    · by_contra hlt
      obtain ⟨e', he', hte'⟩ := hhas
      have := h.leaderLog_mono htip he' (by omega)
      omega
    · exact ha
  refine ⟨hk, fun j hj hjk ↦ ?_⟩
  have h1 := h.chain v i e (by omega) hie j hj (by omega)
  exact h1.trans (h.agree_of_has hhas j (Nat.zero_le _) (by omega))

end Inv

end Ledger
