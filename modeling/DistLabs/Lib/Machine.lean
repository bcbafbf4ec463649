import Mathlib.Data.List.Basic
import Mathlib.Order.Basic

/-!
# Machines, their runs and invariants

A `Machine` is a start state and a partial step function: `step s a = none` says that the action
`a` cannot happen in `s`.  Nothing is assumed about where the actions come from, so a run is any
sequence of actions the machine accepts — which is how a scheduler, a network and a crash all look
from the point of view of a safety argument.

`Reach P s` says that `s` is reached by a run *all of whose steps satisfy `P`*.  The extra
parameter is what a theorem of the form "in every run in which no step does so and so" needs; the
unrestricted notion is `Reach fun _ _ _ ↦ True`.

`exec` replays a concrete list of actions, checking `P` along the way, so that a run can be
exhibited by evaluating it (`reach_of_exec`).
-/

set_option autoImplicit false

universe u v

/-- A start state and a partial, deterministic step function. -/
structure Machine (S : Type u) (A : Type v) where
  /-- The state every run starts in. -/
  init : S
  /-- What an action does, or `none` where it cannot happen. -/
  step : S → A → Option S

namespace Machine

variable {S : Type u} {A : Type v} {M : Machine S A} {P Q : S → A → S → Prop}

/-- The states reached by the runs all of whose steps satisfy `P`. -/
inductive Reach (M : Machine S A) (P : S → A → S → Prop) : S → Prop
  | init : Reach M P M.init
  | step {s s' : S} {a : A} (h : Reach M P s) (hs : M.step s a = some s') (hp : P s a s') :
      Reach M P s'

/-- **The invariant rule.**  What holds at the start and is preserved by every step of a run holds
in every state the run reaches.  The step may use that its own start state is reachable, so an
invariant proved before can be used in the proof of the next one. -/
theorem Reach.invariant {I : S → Prop} (hinit : I M.init)
    (hstep : ∀ s a s', Reach M P s → I s → M.step s a = some s' → P s a s' → I s') {s : S}
    (h : Reach M P s) : I s := by
  induction h with
  | init => exact hinit
  | step h hs hp ih => exact hstep _ _ _ h ih hs hp

/-- A run stays a run when less is asked of its steps. -/
theorem Reach.mono (himp : ∀ s a s', P s a s' → Q s a s') {s : S} (h : Reach M P s) :
    Reach M Q s := by
  induction h with
  | init => exact Reach.init
  | step _ hs hp ih => exact ih.step hs (himp _ _ _ hp)

/-- A condition that every step from a reachable state meets may be added to a run. -/
theorem Reach.strengthen (himp : ∀ s a s', Reach M P s → M.step s a = some s' → P s a s' → Q s a s')
    {s : S} (h : Reach M P s) : Reach M Q s := by
  induction h with
  | init => exact Reach.init
  | step h hs hp ih => exact ih.step hs (himp _ _ _ h hs hp)

/-- **A component of a machine runs by itself.**  If every step either leaves the component `f s` as
it is or is a step of the machine `M'` there, then what is reached lies over what `M'` reaches. -/
theorem Reach.project {S' : Type*} {A' : Type*} {M' : Machine S' A'} {P' : S' → A' → S' → Prop}
    {f : S → S'} (hinit : f M.init = M'.init)
    (hstep : ∀ s a s', M.step s a = some s' → P s a s' →
      f s' = f s ∨ ∃ a', M'.step (f s) a' = some (f s') ∧ P' (f s) a' (f s')) {s : S}
    (h : Reach M P s) : Reach M' P' (f s) := by
  induction h with
  | init => exact hinit ▸ Reach.init
  | step _ hs hp ih =>
    rcases hstep _ _ _ hs hp with hsame | ⟨a', hs', hp'⟩
    · exact hsame ▸ ih
    · exact ih.step hs' hp'

/-- `s'` is reached from `s` by some run. -/
inductive Leads (M : Machine S A) (s : S) : S → Prop
  | refl : Leads M s s
  | step {s' s'' : S} {a : A} (h : Leads M s s') (hs : M.step s' a = some s'') : Leads M s s''

/-- What a reachable state leads to is reachable. -/
theorem Leads.reach {s s' : S} (h : M.Leads s s') (hr : Reach M (fun _ _ _ ↦ True) s) :
    Reach M (fun _ _ _ ↦ True) s' := by
  induction h with
  | refl => exact hr
  | step _ hs ih => exact ih.step hs trivial

/-- **The rule for what never decreases.**  A measure that no step from a reachable state decreases
is not decreased by the rest of a run either. -/
theorem Leads.monotone {α : Type*} [Preorder α] {f : S → α}
    (hstep : ∀ s a s', Reach M (fun _ _ _ ↦ True) s → M.step s a = some s' → f s ≤ f s') {s s' : S}
    (h : M.Leads s s') (hr : Reach M (fun _ _ _ ↦ True) s) : f s ≤ f s' := by
  induction h with
  | refl => exact le_rfl
  | step h hs ih => exact ih.trans (hstep _ _ _ (h.reach hr) hs)

/-- The same machine, started in another state. -/
def startingAt (M : Machine S A) (s : S) : Machine S A := { M with init := s }

/-- A run that goes on from where another one has ended is a run. -/
theorem Reach.append {s s' : S} (h : Reach M P s) (h' : (M.startingAt s).Reach P s') :
    Reach M P s' := by
  induction h' with
  | init => exact h
  | step _ hs hp ih => exact ih.step hs hp

/-- Replay a list of actions from `s`, giving up at the first one that is impossible or that
violates `P`. -/
def exec (M : Machine S A) (P : S → A → S → Prop) [∀ s a s', Decidable (P s a s')] :
    S → List A → Option S
  | s, [] => some s
  | s, a :: as =>
    match M.step s a with
    | none => none
    | some s' => if P s a s' then exec M P s' as else none

theorem Reach.exec [∀ s a s', Decidable (P s a s')] {as : List A} {s s' : S} (h : Reach M P s)
    (he : M.exec P s as = some s') : Reach M P s' := by
  induction as generalizing s with
  | nil =>
    rw [Machine.exec, Option.some_inj] at he
    exact he ▸ h
  | cons a as ih =>
    rw [Machine.exec] at he
    split at he
    · exact absurd he (by simp)
    · next t ht =>
      split at he
      · next hp => exact ih (h.step ht hp) he
      · exact absurd he (by simp)

/-- **A replayed list of actions is a run.** -/
theorem reach_of_exec [∀ s a s', Decidable (P s a s')] {as : List A} {s : S}
    (he : M.exec P M.init as = some s) : Reach M P s :=
  Reach.init.exec he

/-- A run that ends in a state with a decidable property can be found by replaying it. -/
theorem exists_reach_of_exec [∀ s a s', Decidable (P s a s')] {Q : S → Prop} [DecidablePred Q]
    (as : List A) (h : (M.exec P M.init as).any (fun s ↦ decide (Q s)) = true) :
    ∃ s, Reach M P s ∧ Q s := by
  rw [Option.any_eq_true] at h
  obtain ⟨s, hs, hQ⟩ := h
  exact ⟨s, reach_of_exec hs, of_decide_eq_true hQ⟩

/-- **The rule for runs that end.**  If every step lowers the rank of a state, then no run is longer
than the rank of its first state.  A state may have several ranks, so that they can be found along
the way. -/
theorem length_le_of_rank [∀ s a s', Decidable (P s a s')] {R : S → Nat → Prop}
    (hstep : ∀ s a s' k, R s k → M.step s a = some s' → P s a s' → ∃ k' < k, R s' k') {as : List A}
    {s s' : S} {k : Nat} (hk : R s k) (he : M.exec P s as = some s') : as.length ≤ k := by
  induction as generalizing s k with
  | nil => exact Nat.zero_le k
  | cons a as ih =>
    rw [Machine.exec] at he
    split at he
    · exact absurd he (by simp)
    · next t ht =>
      split at he
      · next hp =>
        obtain ⟨k', hlt, hk'⟩ := hstep s a t k hk ht hp
        exact Nat.lt_of_le_of_lt (ih hk' he) hlt
      · exact absurd he (by simp)

end Machine
