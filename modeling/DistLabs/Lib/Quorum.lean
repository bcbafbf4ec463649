import Mathlib.Data.Fintype.Card
import Mathlib.Data.Fintype.BigOperators

/-!
# Majorities

The one fact about majorities a consensus argument rests on: two of them meet.
-/

set_option autoImplicit false

universe u

variable {S : Type u} [Fintype S]

/-- A strict majority of a finite type. -/
def Majority (Q : Finset S) : Prop := Fintype.card S < 2 * Q.card

instance (Q : Finset S) : Decidable (Majority Q) := inferInstanceAs (Decidable (_ < _))

theorem Majority.mono {Q R : Finset S} (h : Majority Q) (hQR : Q ⊆ R) : Majority R := by
  have := Finset.card_le_card hQR
  rw [Majority] at h ⊢
  omega

/-- **Two majorities meet.** -/
theorem Majority.meet [DecidableEq S] {Q R : Finset S} (hQ : Majority Q) (hR : Majority R) :
    ∃ v, v ∈ Q ∧ v ∈ R := by
  by_contra hne
  have hdis : Disjoint Q R := by
    rw [Finset.disjoint_left]
    intro v hv hv'
    exact hne ⟨v, hv, hv'⟩
  have hcard : (Q ∪ R).card ≤ Fintype.card S := Finset.card_le_univ _
  rw [Finset.card_union_of_disjoint hdis] at hcard
  rw [Majority] at hQ hR
  omega
