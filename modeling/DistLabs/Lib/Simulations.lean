import DistLabs.Lib.Machine

/-!
# Simulations between machines

A machine `M` is simulated by a machine `M'` along a relation `R` of their states if every step of
`M` can be answered by a run of `M'`, of any length, that ends in a related state.  Then every run
of `M` has a run of `M'` beside it (`Reach.simulate`), and what is known of the states `M'` reaches
is known of those related to them.
-/

set_option autoImplicit false

universe u v

namespace Machine

variable {S : Type u} {A : Type v} {M : Machine S A} {P Q : S → A → S → Prop}

/-- **The simulation rule.**  Both runs may be used in the answer to a step. -/
theorem Reach.simulate {S' : Type*} {A' : Type*} {M' : Machine S' A'} {P' : S' → A' → S' → Prop}
    {R : S → S' → Prop} (hinit : R M.init M'.init)
    (hstep : ∀ s a s' t, Reach M P s → M.step s a = some s' → P s a s' → Reach M' P' t → R s t →
      ∃ t', (M'.startingAt t).Reach P' t' ∧ R s' t') {s : S} (h : Reach M P s) :
    ∃ t, Reach M' P' t ∧ R s t := by
  induction h with
  | init => exact ⟨_, .init, hinit⟩
  | step h hs hp ih =>
    obtain ⟨t, ht, hR⟩ := ih
    obtain ⟨t', ht', hR'⟩ := hstep _ _ _ t h hs hp ht hR
    exact ⟨t', ht.append ht', hR'⟩

/-- One step is a run. -/
theorem Reach.single {s s' : S} {a : A} (hs : M.step s a = some s') (hp : P s a s') :
    (M.startingAt s).Reach P s' :=
  Reach.step .init hs hp

end Machine
