import Mathlib.Data.List.Flatten
import Mathlib.Data.List.Pairwise
import Mathlib.Data.List.Range

/-!
# Linearizability

Clients call the operations of a shared object; a history lists the moments at which calls are made
and return, in real time.  It is linearizable if there is one order of the calls in which a
`SeqObject`, used by one client at a time, gives the answers the clients got, and in which no call
comes before one that had returned when it was made.  Calls that have not returned may or may not
have a place in this order.

The rules below are for objects that are driven by a log.  Each index of the log has a *slot*, the
list of the calls that take effect there, and the order is the slots one after the other: it is
legal if each slot leads from the state before its index to the one after it (`legal_flatMap`), and
it respects real time if calls are made before their index is reached and return after
(`pairwise_flatMap_of_stamps`).
-/

set_option autoImplicit false

universe u v w x

/-- A call is made, or a call returns. -/
inductive CallEvent (I : Type u) (O : Type v) (R : Type w)
  | invoke (i : I) (op : O)
  | respond (i : I) (r : R)
deriving DecidableEq, Repr

/-- An object for one client. -/
structure SeqObject (S : Type x) (O : Type v) (R : Type w) where
  /-- The state at the start. -/
  init : S
  /-- The state after an operation. -/
  next : S → O → S
  /-- What the operation returns. -/
  result : S → O → R

variable {I : Type u} {O : Type v} {R : Type w} {S : Type x}

namespace SeqObject

variable {obj : SeqObject S O R}

/-- The state after a list of calls. -/
def after (obj : SeqObject S O R) : S → List (I × O × R) → S
  | s, [] => s
  | s, (_, op, _) :: rest => obj.after (obj.next s op) rest

/-- The calls return what the object returns. -/
def Legal (obj : SeqObject S O R) : S → List (I × O × R) → Prop
  | _, [] => True
  | s, (_, op, r) :: rest => r = obj.result s op ∧ obj.Legal (obj.next s op) rest

theorem after_append (s : S) (l l' : List (I × O × R)) :
    obj.after s (l ++ l') = obj.after (obj.after s l) l' := by
  induction l generalizing s with
  | nil => rfl
  | cons x l ih => exact ih _

theorem legal_append {s : S} {l l' : List (I × O × R)} :
    obj.Legal s (l ++ l') ↔ obj.Legal s l ∧ obj.Legal (obj.after s l) l' := by
  induction l generalizing s with
  | nil => simp [Legal, after]
  | cons x l ih => simp only [List.cons_append, Legal, after, ih, and_assoc]

/-- Calls that change nothing and return what they should. -/
theorem legal_of_reads {s : S} {l : List (I × O × R)}
    (h : ∀ x ∈ l, obj.next s x.2.1 = s ∧ x.2.2 = obj.result s x.2.1) :
    obj.Legal s l ∧ obj.after s l = s := by
  induction l with
  | nil => exact ⟨trivial, rfl⟩
  | cons x l ih =>
    obtain ⟨hs, hr⟩ := h x (by simp)
    obtain ⟨hl, ha⟩ := ih fun y hy ↦ h y (by simp [hy])
    rw [Legal, after, hs]
    exact ⟨⟨hr, hl⟩, ha⟩

/-- **Slot by slot.**  If each slot leads legally from one state to the next, all of them do. -/
theorem legal_flatMap (slot : ℕ → List (I × O × R)) (st : ℕ → S) {m : ℕ}
    (h : ∀ i < m, obj.Legal (st i) (slot i) ∧ obj.after (st i) (slot i) = st (i + 1)) :
    obj.Legal (st 0) ((List.range m).flatMap slot) ∧
      obj.after (st 0) ((List.range m).flatMap slot) = st m := by
  induction m with
  | zero => exact ⟨trivial, rfl⟩
  | succ m ih =>
    obtain ⟨hl, ha⟩ := ih fun i hi ↦ h i (by omega)
    obtain ⟨hl', ha'⟩ := h m (by omega)
    rw [List.range_succ, List.flatMap_append, List.flatMap_singleton, legal_append, after_append,
      ha]
    exact ⟨⟨hl, hl'⟩, ha'⟩

end SeqObject

/-! ## Histories -/

/-- Call `i` had returned when call `j` was made. -/
def Precedes (h : List (CallEvent I O R)) (i j : I) : Prop :=
  ∃ before after r op, h = before ++ .respond i r :: after ∧ .invoke j op ∈ after

/-- The order `l` of calls explains the history `h`. -/
structure Linearizes (obj : SeqObject S O R) (h : List (CallEvent I O R)) (l : List (I × O × R)) :
    Prop where
  /-- Every call takes effect at most once. -/
  nodup : (l.map Prod.fst).Nodup
  /-- Only calls that were made take effect. -/
  invoked : ∀ i op r, (i, op, r) ∈ l → .invoke i op ∈ h
  /-- Every call that has returned takes effect, and its result is the one that was returned. -/
  completed : ∀ i r, .respond i r ∈ h → ∃ op, (i, op, r) ∈ l
  /-- The results are those of the object. -/
  legal : obj.Legal obj.init l
  /-- No call takes effect before one that had returned when it was made. -/
  realTime : l.Pairwise fun x y ↦ ¬ Precedes h y.1 x.1

/-- What had returned at position `q` had returned when a call was made later. -/
theorem Precedes.of_lt {h : List (CallEvent I O R)} {i j : I} {r : R} {op : O} {p q : ℕ}
    (hq : h[q]? = some (.respond i r)) (hp : h[p]? = some (.invoke j op)) (hlt : q < p) :
    Precedes h i j := by
  obtain ⟨hq', hget⟩ := List.getElem?_eq_some_iff.mp hq
  refine ⟨h.take q, h.drop (q + 1), r, op, ?_, ?_⟩
  · rw [← hget, ← List.drop_eq_getElem_cons hq', List.take_append_drop]
  · refine List.mem_of_getElem? (i := p - (q + 1)) ?_
    rw [List.getElem?_drop, ← hp]
    congr 1
    omega

/-! ## Well-formed histories -/

/-- The call an event is about. -/
def CallEvent.id : CallEvent I O R → I
  | .invoke i _ => i
  | .respond i _ => i

/-- No call is made twice, and none returns twice or before it is made. -/
def WellFormed (h : List (CallEvent I O R)) : Prop :=
  h.Pairwise fun e e' ↦ e.id = e'.id → (∃ i op, e = .invoke i op) ∧ ∃ i r, e' = .respond i r

namespace WellFormed

variable {h : List (CallEvent I O R)} {i : I} {p q : ℕ}

/-- Of two events of one call, the first is its start and the second its end. -/
theorem of_lt (hw : WellFormed h) {e e' : CallEvent I O R} (hp : h[p]? = some e)
    (hq : h[q]? = some e') (hlt : p < q) (hid : e.id = e'.id) :
    (∃ i op, e = .invoke i op) ∧ ∃ i r, e' = .respond i r := by
  obtain ⟨hp', rfl⟩ := List.getElem?_eq_some_iff.mp hp
  obtain ⟨hq', rfl⟩ := List.getElem?_eq_some_iff.mp hq
  exact List.pairwise_iff_getElem.mp hw p q hp' hq' hlt hid

theorem invoke_unique (hw : WellFormed h) {op op' : O} (hp : h[p]? = some (.invoke i op))
    (hq : h[q]? = some (.invoke i op')) : p = q := by
  rcases lt_trichotomy p q with hlt | rfl | hlt
  · obtain ⟨-, j, r, heq⟩ := hw.of_lt hp hq hlt rfl
    simp at heq
  · rfl
  · obtain ⟨-, j, r, heq⟩ := hw.of_lt hq hp hlt rfl
    simp at heq

theorem invoke_lt_respond (hw : WellFormed h) {op : O} {r : R} (hp : h[p]? = some (.invoke i op))
    (hq : h[q]? = some (.respond i r)) : p < q := by
  rcases lt_trichotomy p q with hlt | rfl | hlt
  · exact hlt
  · simp [hp] at hq
  · obtain ⟨⟨j, op', heq⟩, -⟩ := hw.of_lt hq hp hlt rfl
    simp at heq

theorem concat (hw : WellFormed h) {e' : CallEvent I O R}
    (hnew : ∀ e ∈ h, e.id = e'.id → (∃ i op, e = .invoke i op) ∧ ∃ i r, e' = .respond i r) :
    WellFormed (h ++ [e']) :=
  List.pairwise_append.mpr ⟨hw, List.pairwise_singleton .., fun e he _ he' ↦
    List.mem_singleton.mp he' ▸ hnew e he⟩

end WellFormed

/-! ## Stamps -/

/-- In a history whose events carry stamps that never go back, the stamp of a response is at most
that of a later call. -/
theorem Precedes.stamps {h : List (ℕ × CallEvent I O R)}
    (hsorted : h.Pairwise fun e e' ↦ e.1 ≤ e'.1) {i j : I} (hp : Precedes (h.map Prod.snd) i j) :
    ∃ t t' r op, (t, .respond i r) ∈ h ∧ (t', .invoke j op) ∈ h ∧ t ≤ t' := by
  obtain ⟨before, after, r, op, heq, hop⟩ := hp
  obtain ⟨h₁, h₂, rfl, -, hmap⟩ := List.map_eq_append_iff.mp heq
  obtain ⟨⟨t, e⟩, h₃, rfl, he, hafter⟩ := List.map_eq_cons_iff.mp hmap
  rw [← hafter] at hop
  obtain ⟨⟨t', e'⟩, hmem, he'⟩ := List.mem_map.mp hop
  cases he
  cases he'
  refine ⟨t, t', r, op, by simp, by simp [hmem], ?_⟩
  exact List.rel_of_pairwise_cons (List.pairwise_append.mp hsorted).2.1 hmem

/-- **Slots respect real time**, if a call in slot `i` is made at a stamp up to `i` and returns at
one beyond `i`. -/
theorem pairwise_flatMap_of_stamps {h : List (ℕ × CallEvent I O R)}
    (hsorted : h.Pairwise fun e e' ↦ e.1 ≤ e'.1) {slot : ℕ → List (I × O × R)} {m : ℕ}
    (hinvoke : ∀ i, ∀ x ∈ slot i, ∀ t op, (t, .invoke x.1 op) ∈ h → t ≤ i)
    (hrespond : ∀ i, ∀ x ∈ slot i, ∀ t r, (t, .respond x.1 r) ∈ h → i < t) :
    ((List.range m).flatMap slot).Pairwise fun x y ↦ ¬ Precedes (h.map Prod.snd) y.1 x.1 := by
  have key : ∀ {i j}, i ≤ j → ∀ x ∈ slot i, ∀ y ∈ slot j,
      ¬ Precedes (h.map Prod.snd) y.1 x.1 := by
    intro i j hij x hx y hy hp
    obtain ⟨t, t', r, op, hr, hop, hle⟩ := hp.stamps hsorted
    have h1 := hrespond j y hy t r hr
    have h2 := hinvoke i x hx t' op hop
    omega
  rw [List.pairwise_flatMap]
  refine ⟨fun i _ ↦ List.pairwise_of_forall_mem_list fun x hx y hy ↦ key le_rfl x hx y hy, ?_⟩
  exact List.pairwise_lt_range.imp fun hij ↦ key hij.le
