import DistLabs.Porcupine.Checker
import Mathlib.Data.Finset.Card
import Mathlib.Data.Finset.Lattice.Fold
import Mathlib.Data.List.Pairwise

/-!
# Orders of a history

What the checker looks for.  The operations of a history are numbered; each has a call and, later, a
return (`Matched`).  A `Linearization` is an order of all of them that the model accepts from its
first state and in which no operation comes before one that had returned when it was called.

The search finds such an order from the front.  After the operations in `done`, operation `i` may
come next if every operation that had returned when `i` was called is in `done` (`Fits`); a list of
operations is a piece of an order if each of them fits and is accepted in its turn (`Runs`).  The
entries that are left (`rem`) are walked from the front, and the operations that fit are those whose
calls stand before the first return (`Matched.fits`, `Matched.mem_before_of_fits`).
-/

set_option autoImplicit false

namespace DistLabs.Porcupine

variable {S I O : Type} {model : Model S I O} {history : List (Entry I O)}

/-! ## Histories -/

/-- The entry is a call. -/
def Entry.isCall (e : Entry I O) : Bool :=
  match e.kind with
  | .call _ => true
  | .return _ => false

/-- Where operation `i` is called. -/
def callPos (history : List (Entry I O)) (i : ℕ) : ℕ :=
  history.findIdx fun e ↦ e.id == i && e.isCall

/-- Where operation `i` returns. -/
def returnPos (history : List (Entry I O)) (i : ℕ) : ℕ :=
  history.findIdx fun e ↦ e.id == i && !e.isCall

/-- The number of operations. -/
def size (history : List (Entry I O)) : ℕ := history.length / 2

/-- The operations are numbered from `0`, and each of them has a call, a return after it, and no
other entries. -/
structure Matched (history : List (Entry I O)) : Prop where
  /-- A call comes before its return. -/
  call_lt : ∀ i < size history, callPos history i < returnPos history i
  /-- Which is in the history. -/
  return_lt : ∀ i < size history, returnPos history i < history.length
  /-- There are no other entries. -/
  covers : ∀ p < history.length, ∃ i < size history,
    p = callPos history i ∨ p = returnPos history i

instance (history : List (Entry I O)) : Decidable (Matched history) :=
  decidable_of_iff ((∀ i < size history, callPos history i < returnPos history i) ∧
      (∀ i < size history, returnPos history i < history.length) ∧
      ∀ p < history.length, ∃ i < size history,
        p = callPos history i ∨ p = returnPos history i)
    ⟨fun h ↦ ⟨h.1, h.2.1, h.2.2⟩, fun h ↦ ⟨h.1, h.2, h.3⟩⟩

/-- The operation of an entry. -/
def idAt (history : List (Entry I O)) (p : ℕ) : ℕ := (history[p]?.map Entry.id).getD 0

namespace Matched

variable (hm : Matched history) {i p : ℕ}
include hm

theorem call_spec (hi : i < size history) :
    ∃ e input, history[callPos history i]? = some e ∧ e.id = i ∧ e.kind = .call input := by
  have hlt := (hm.call_lt i hi).trans (hm.return_lt i hi)
  have hget : (fun e : Entry I O ↦ e.id == i && e.isCall) (history[callPos history i]) = true :=
    List.findIdx_getElem (w := hlt)
  rw [Bool.and_eq_true, beq_iff_eq, Entry.isCall] at hget
  cases hk : (history[callPos history i]).kind with
  | call input => exact ⟨_, input, List.getElem?_eq_getElem hlt, hget.1, hk⟩
  | «return» output => simp [hk] at hget

theorem return_spec (hi : i < size history) :
    ∃ e output, history[returnPos history i]? = some e ∧ e.id = i ∧ e.kind = .return output := by
  have hlt := hm.return_lt i hi
  have hget : (fun e : Entry I O ↦ e.id == i && !e.isCall) (history[returnPos history i]) = true :=
    List.findIdx_getElem (w := hlt)
  rw [Bool.and_eq_true, beq_iff_eq, Entry.isCall] at hget
  cases hk : (history[returnPos history i]).kind with
  | call input => simp [hk] at hget
  | «return» output => exact ⟨_, output, List.getElem?_eq_getElem hlt, hget.1, hk⟩

theorem idAt_call (hi : i < size history) : idAt history (callPos history i) = i := by
  obtain ⟨e, -, he, hid, -⟩ := hm.call_spec hi
  rw [idAt, he]
  exact hid

theorem idAt_return (hi : i < size history) : idAt history (returnPos history i) = i := by
  obtain ⟨e, -, he, hid, -⟩ := hm.return_spec hi
  rw [idAt, he]
  exact hid

/-- Every entry is the call or the return of its operation. -/
theorem pos_cases (hp : p < history.length) : idAt history p < size history ∧
    (p = callPos history (idAt history p) ∨ p = returnPos history (idAt history p)) := by
  obtain ⟨i, hi, rfl | rfl⟩ := hm.covers p hp
  · rw [hm.idAt_call hi]
    exact ⟨hi, Or.inl rfl⟩
  · rw [hm.idAt_return hi]
    exact ⟨hi, Or.inr rfl⟩

theorem idAt_iff (hi : i < size history) (hp : p < history.length) :
    idAt history p = i ↔ p = callPos history i ∨ p = returnPos history i := by
  constructor
  · rintro rfl
    exact (hm.pos_cases hp).2
  · rintro (rfl | rfl)
    · exact hm.idAt_call hi
    · exact hm.idAt_return hi

end Matched

/-! ## Orders -/

/-- The model takes one operation of the history. -/
def opStep (model : Model S I O) (history : List (Entry I O)) (s : S) (i : ℕ) : Option S :=
  match (history[callPos history i]?).map Entry.kind,
    (history[returnPos history i]?).map Entry.kind with
  | some (.call input), some (.return output) =>
    let (ok, s') := model.step s input output
    if ok then some s' else none
  | _, _ => none

/-- **A linearization**: an order of all operations that the model accepts and that respects real
time. -/
structure Linearization (model : Model S I O) (history : List (Entry I O)) (seq : List ℕ) :
    Prop where
  /-- It has every operation once. -/
  perm : seq.Perm (List.range (size history))
  /-- The model accepts it. -/
  legal : (seq.foldlM (opStep model history) model.init).isSome
  /-- No operation comes before one that had returned when it was called. -/
  realTime : seq.Pairwise fun i j ↦ ¬ returnPos history j < callPos history i

/-- Operation `i` may come next after `done`. -/
structure Fits (history : List (Entry I O)) (done : Finset ℕ) (i : ℕ) : Prop where
  /-- It is an operation. -/
  lt : i < size history
  /-- It has not come yet. -/
  new : i ∉ done
  /-- All that had returned when it was called have. -/
  earlier : ∀ j < size history, returnPos history j < callPos history i → j ∈ done

/-- The operations can follow one after the other after `done`, from state `s`. -/
def Runs (model : Model S I O) (history : List (Entry I O)) : Finset ℕ → S → List ℕ → Prop
  | _, _, [] => True
  | done, s, i :: rest => Fits history done i ∧
      ∃ s', opStep model history s i = some s' ∧ Runs model history (insert i done) s' rest

/-- The beginning of an order. -/
def PartialLinearization (model : Model S I O) (history : List (Entry I O)) (seq : List ℕ) :
    Prop :=
  Runs model history ∅ model.init seq

theorem Runs.append {done : Finset ℕ} {s : S} {seq more : List ℕ}
    (h : Runs model history done s seq) {s' : S}
    (hs : seq.foldlM (opStep model history) s = some s')
    (hmore : Runs model history (done ∪ seq.toFinset) s' more) :
    Runs model history done s (seq ++ more) := by
  induction seq generalizing done s with
  | nil =>
    obtain rfl : s = s' := by simpa using hs
    simpa using hmore
  | cons i rest ih =>
    obtain ⟨hfit, s₁, hs₁, hrest⟩ := h
    rw [List.foldlM_cons, hs₁, Option.bind_eq_bind, Option.bind_some] at hs
    refine ⟨hfit, s₁, hs₁, ih hrest hs ?_⟩
    rwa [Finset.insert_union, ← Finset.union_insert, ← List.toFinset_cons]

/-- The model accepts what runs. -/
theorem Runs.legal {done : Finset ℕ} {s : S} {seq : List ℕ} (h : Runs model history done s seq) :
    ∃ s', seq.foldlM (opStep model history) s = some s' := by
  induction seq generalizing done s with
  | nil => exact ⟨s, rfl⟩
  | cons i rest ih =>
    obtain ⟨-, s₁, hs₁, hrest⟩ := h
    rw [List.foldlM_cons, hs₁]
    exact ih hrest

theorem Runs.nodup {done : Finset ℕ} {s : S} {seq : List ℕ} (h : Runs model history done s seq) :
    seq.Nodup ∧ ∀ i ∈ seq, i < size history ∧ i ∉ done := by
  induction seq generalizing done s with
  | nil => simp
  | cons i rest ih =>
    obtain ⟨hfit, s₁, -, hrest⟩ := h
    obtain ⟨hnd, hall⟩ := ih hrest
    refine ⟨List.nodup_cons.mpr ⟨fun hmem ↦ (hall i hmem).2 (Finset.mem_insert_self ..), hnd⟩, ?_⟩
    intro j hj
    rcases List.mem_cons.mp hj with rfl | hj
    · exact ⟨hfit.lt, hfit.new⟩
    · exact ⟨(hall j hj).1, fun hd ↦ (hall j hj).2 (Finset.mem_insert_of_mem hd)⟩

/-- What comes later had not returned before. -/
theorem Runs.realTime {done : Finset ℕ} {s : S} {seq : List ℕ}
    (h : Runs model history done s seq) :
    seq.Pairwise fun i j ↦ ¬ returnPos history j < callPos history i := by
  induction seq generalizing done s with
  | nil => exact List.Pairwise.nil
  | cons i rest ih =>
    obtain ⟨hfit, s₁, -, hrest⟩ := h
    refine List.pairwise_cons.mpr ⟨fun j hj hlt ↦ ?_, ih hrest⟩
    obtain ⟨hjs, hjd⟩ := hrest.nodup.2 j hj
    exact hjd (Finset.mem_insert_of_mem (hfit.earlier j hjs hlt))

/-- **A linearization is a beginning that has everything.** -/
theorem linearization_iff (hm : Matched history) {seq : List ℕ} :
    Linearization model history seq ↔ PartialLinearization model history seq ∧ seq.length = size
    history := by
  constructor
  · intro h
    refine ⟨?_, by simpa using h.perm.length_eq⟩
    -- what is still to come is what is not done
    have key : ∀ {rest : List ℕ} {done : Finset ℕ} {s : S}, rest.Nodup →
        (∀ i, i < size history → (i ∈ done ↔ i ∉ rest)) → (∀ i ∈ rest, i < size history) →
        (rest.foldlM (opStep model history) s).isSome →
        rest.Pairwise (fun i j ↦ ¬ returnPos history j < callPos history i) →
        (∀ i ∈ rest, ¬ returnPos history i < callPos history i) →
        Runs model history done s rest := by
      intro rest
      induction rest with
      | nil => intros; trivial
      | cons i rest ih =>
        intro done s hnd hdone hlt hlegal hreal hself
        obtain ⟨hni, hnd⟩ := List.nodup_cons.mp hnd
        obtain ⟨hi, hreal⟩ := List.pairwise_cons.mp hreal
        have hil := hlt i (by simp)
        cases hs : opStep model history s i with
        | none => simp [hs] at hlegal
        | some s' =>
          refine ⟨⟨hil, fun hd ↦ (hdone i hil).mp hd (by simp), fun j hj hjlt ↦ ?_⟩, s', hs, ?_⟩
          · refine (hdone j hj).mpr fun hmem ↦ ?_
            rcases List.mem_cons.mp hmem with rfl | hmem
            · exact hself j (by simp) hjlt
            · exact hi j hmem hjlt
          · refine ih hnd (fun j hj ↦ ?_) (fun j hj ↦ hlt j (by simp [hj]))
              (by simpa [hs] using hlegal) hreal fun j hj ↦ hself j (by simp [hj])
            rw [Finset.mem_insert, hdone j hj, List.mem_cons, not_or]
            by_cases hji : j = i
            · simp [hji, hni]
            · simp [hji]
    have hlt : ∀ i ∈ seq, i < size history := fun i hi ↦ List.mem_range.mp (h.perm.mem_iff.mp hi)
    refine key (h.perm.nodup_iff.mpr List.nodup_range) (fun i hi ↦ ?_) hlt h.legal h.realTime
      fun i hi ↦ (hm.call_lt i (hlt i hi)).not_gt
    simp [h.perm.mem_iff, hi]
  · rintro ⟨h, hlen⟩
    obtain ⟨hnd, hall⟩ := h.nodup
    refine ⟨?_, Option.isSome_iff_exists.mpr h.legal, h.realTime⟩
    refine (List.subperm_of_subset hnd fun i hi ↦ ?_).perm_of_length_le (by simp [hlen])
    exact List.mem_range.mpr (hall i hi).1

/-! ## The entries that are left -/

/-- The positions of the entries whose operations are not in `done`. -/
def rem (history : List (Entry I O)) (done : Finset ℕ) : List ℕ :=
  (List.range history.length).filter fun p ↦ idAt history p ∉ done

variable {done : Finset ℕ} {i p : ℕ} {before mid after : List ℕ}

@[simp] theorem rem_empty : rem history ∅ = List.range history.length := by
  simp [rem]

theorem mem_rem : p ∈ rem history done ↔ p < history.length ∧ idAt history p ∉ done := by
  simp [rem]

theorem rem_sorted (history : List (Entry I O)) (done : Finset ℕ) :
    (rem history done).Pairwise (· < ·) :=
  List.pairwise_lt_range.filter _

theorem rem_nodup (history : List (Entry I O)) (done : Finset ℕ) : (rem history done).Nodup :=
  List.nodup_range.filter _

namespace Matched

variable (hm : Matched history)
include hm

theorem call_mem_rem (hi : i < size history) (hd : i ∉ done) :
    callPos history i ∈ rem history done :=
  mem_rem.mpr ⟨(hm.call_lt i hi).trans (hm.return_lt i hi), by rwa [hm.idAt_call hi]⟩

theorem return_mem_rem (hi : i < size history) (hd : i ∉ done) :
    returnPos history i ∈ rem history done :=
  mem_rem.mpr ⟨hm.return_lt i hi, by rwa [hm.idAt_return hi]⟩

/-- Something is left as long as there are operations that are not done. -/
theorem rem_ne_nil_iff (hdone : ∀ i ∈ done, i < size history) :
    rem history done ≠ [] ↔ done.card < size history := by
  constructor
  · intro hne
    obtain ⟨p, hp⟩ := List.exists_mem_of_ne_nil _ hne
    obtain ⟨hlt, hnd⟩ := mem_rem.mp hp
    have hsub : insert (idAt history p) done ⊆ Finset.range (size history) := by
      intro j hj
      rcases Finset.mem_insert.mp hj with rfl | hj
      · exact Finset.mem_range.mpr (hm.pos_cases hlt).1
      · exact Finset.mem_range.mpr (hdone j hj)
    have := Finset.card_le_card hsub
    rw [Finset.card_insert_of_notMem hnd, Finset.card_range] at this
    omega
  · intro hlt hnil
    obtain ⟨j, hj, hjd⟩ : ∃ j ∈ Finset.range (size history), j ∉ done := by
      by_contra hall
      push Not at hall
      have := Finset.card_le_card (s := Finset.range (size history)) (t := done) hall
      rw [Finset.card_range] at this
      omega
    have := hm.call_mem_rem (Finset.mem_range.mp hj) hjd
    rw [hnil] at this
    simp at this

/-- The call and the return of an operation that is left. -/
theorem rem_split (hi : i < size history) (hd : i ∉ done) :
    ∃ before mid after,
      rem history done = before ++ callPos history i :: (mid ++ returnPos history i :: after) := by
  obtain ⟨before, rest, hrem⟩ := List.append_of_mem (hm.call_mem_rem hi hd)
  have hret := hm.return_mem_rem hi hd
  have hsorted := rem_sorted history done
  have hlt := hm.call_lt i hi
  rw [hrem] at hret hsorted
  rcases List.mem_append.mp hret with hin | hin
  · have := (List.pairwise_append.mp hsorted).2.2 _ hin (callPos history i) (by simp)
    omega
  · rcases List.mem_cons.mp hin with heq | hin
    · omega
    · obtain ⟨mid, after, rfl⟩ := List.append_of_mem hin
      exact ⟨before, mid, after, hrem⟩

/-- An operation takes its call and its return away. -/
theorem rem_insert (hi : i < size history)
    (h : rem history done = before ++ callPos history i :: (mid ++ returnPos history i :: after)) :
    rem history (insert i done) = before ++ (mid ++ after) := by
  have hnd := rem_nodup history done
  have hfilter : rem history (insert i done) =
      (rem history done).filter fun p ↦ p ≠ callPos history i ∧ p ≠ returnPos history i := by
    rw [rem, rem, List.filter_filter]
    refine List.filter_congr fun p hp ↦ ?_
    have hiff := hm.idAt_iff hi (List.mem_range.mp hp)
    simp only [Finset.mem_insert, hiff, not_or, Bool.decide_and]
  rw [hfilter, h]
  rw [h] at hnd
  have hall : ∀ q ∈ before ++ (mid ++ after),
      q ≠ callPos history i ∧ q ≠ returnPos history i := by
    intro q hq
    simp only [List.nodup_append, List.nodup_cons, List.mem_append, List.mem_cons] at hnd hq
    constructor
    · rintro rfl
      rcases hq with hq | hq | hq
      · exact hnd.2.2 _ hq _ (Or.inl rfl) rfl
      · exact hnd.2.1.1 (Or.inl hq)
      · exact hnd.2.1.1 (Or.inr (Or.inr hq))
    · rintro rfl
      rcases hq with hq | hq | hq
      · exact hnd.2.2 _ hq _ (Or.inr (Or.inr (Or.inl rfl))) rfl
      · exact hnd.2.1.2.2.2 _ hq _ (Or.inl rfl) rfl
      · exact hnd.2.1.2.2.1.1 hq
  have hid : (before ++ (mid ++ after)).filter (fun p ↦
      decide (p ≠ callPos history i ∧ p ≠ returnPos history i)) = before ++ (mid ++ after) :=
    List.filter_eq_self.mpr fun q hq ↦ by simpa using hall q hq
  rw [← hid]
  simp [List.filter_append]

/-- **Before the first return** every call may come next. -/
theorem fits (hrem : rem history done = before ++ p :: after) (hp : p = callPos history i)
    (hi : i < size history) (hcalls : ∀ q ∈ before, q = callPos history (idAt history q)) :
    Fits history done i := by
  have hmem : p ∈ rem history done := by simp [hrem]
  have hnd : i ∉ done := by
    have := (mem_rem.mp hmem).2
    rwa [hp, hm.idAt_call hi] at this
  refine ⟨hi, hnd, fun j hj hlt ↦ ?_⟩
  by_contra hjd
  -- the return would stand before the call
  have hret := hm.return_mem_rem hj hjd
  have hsorted := rem_sorted history done
  rw [hrem] at hret hsorted
  rcases List.mem_append.mp hret with hbefore | hafter
  · have := hcalls _ hbefore
    rw [hm.idAt_return hj] at this
    exact absurd this (hm.call_lt j hj).ne'
  · have hle : p ≤ returnPos history j := by
      rcases List.mem_cons.mp hafter with heq | hin
      · exact heq.ge
      · exact (List.rel_of_pairwise_cons (List.pairwise_append.mp hsorted).2.1 hin).le
    omega

/-- And nothing else may. -/
theorem mem_before_of_fits (hrem : rem history done = before ++ returnPos history p :: after)
    (hp : p < size history) (hfit : Fits history done i) : callPos history i ∈ before := by
  have hcall := hm.call_mem_rem hfit.lt hfit.new
  have hpd : p ∉ done := by
    have := (mem_rem.mp (show returnPos history p ∈ rem history done by simp [hrem])).2
    rwa [hm.idAt_return hp] at this
  have hsorted := rem_sorted history done
  rw [hrem] at hcall hsorted
  rcases List.mem_append.mp hcall with hbefore | hafter
  · exact hbefore
  · exfalso
    rcases List.mem_cons.mp hafter with heq | hin
    · have hid := hm.idAt_call hfit.lt
      rw [heq, hm.idAt_return hp] at hid
      subst hid
      exact absurd heq (hm.call_lt p hp).ne
    · have hlt := List.rel_of_pairwise_cons (List.pairwise_append.mp hsorted).2.1 hin
      exact hpd (hfit.earlier p hp hlt)

end Matched

end DistLabs.Porcupine
