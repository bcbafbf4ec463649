import DistLabs.Porcupine.Search
import Mathlib.Data.List.Forall2
import Mathlib.Data.List.Perm.Basic

/-!
# Histories of operations

`makeEntries`: a history given by operations, each with the times of its call and its return, is
made into one of entries by sorting.  Among entries with the same time, calls go first.  The result
is matched if no operation returns before it is called, and then an operation had returned when
another one was called exactly if its time says so (`return_lt_call_iff`).

`Linearizable` is what it means for a history of operations, without any mention of entries, and
`exists_linearization_iff` says that it is what the checker looks for.
-/

set_option autoImplicit false

namespace DistLabs.Porcupine

/-- `Operation`. -/
structure Operation (I O : Type) where
  /-- Who called; nothing depends on it. -/
  clientId : Int
  /-- The input. -/
  input : I
  /-- When it was called. -/
  call : Int
  /-- The output. -/
  output : O
  /-- When it returned. -/
  ret : Int
deriving DecidableEq, Repr

variable {S I O : Type}

/-- `Less` of `byTime`. -/
def less (a b : Entry I O) : Bool :=
  if a.time ≠ b.time then decide (a.time < b.time) else a.isCall && !b.isCall

/-- `sort.Sort(byTime(…))`, which is free to choose an order where `Less` does not. -/
structure TimeSort (I O : Type) where
  /-- The sorted slice. -/
  sort : List (Entry I O) → List (Entry I O)
  /-- It has the same entries. -/
  perm : ∀ es, (sort es).Perm es
  /-- It is sorted. -/
  sorted : ∀ es, (sort es).Pairwise fun a b ↦ less b a = false

namespace Operation

/-- The entry of the call. -/
def callEntry (op : Operation I O) (id : Nat) : Entry I O :=
  ⟨.call op.input, id, op.call, op.clientId⟩

/-- The entry of the return. -/
def returnEntry (op : Operation I O) (id : Nat) : Entry I O :=
  ⟨.return op.output, id, op.ret, op.clientId⟩

end Operation

/-- The loop of `makeEntries`, with the next number. -/
def entriesFrom : Nat → List (Operation I O) → List (Entry I O)
  | _, [] => []
  | id, elem :: rest => elem.callEntry id :: elem.returnEntry id :: entriesFrom (id + 1) rest

/-- `makeEntries`. -/
def makeEntries (s : TimeSort I O) (history : List (Operation I O)) : List (Entry I O) :=
  s.sort (entriesFrom 0 history)

/-! ## The entries -/

variable {ops : List (Operation I O)} {op : Operation I O} {i j id : ℕ}

theorem entriesFrom_length (id : ℕ) (ops : List (Operation I O)) :
    (entriesFrom id ops).length = 2 * ops.length := by
  induction ops generalizing id with
  | nil => rfl
  | cons op rest ih =>
    simp only [entriesFrom, List.length_cons, ih]
    omega

theorem mem_entriesFrom {e : Entry I O} : e ∈ entriesFrom id ops ↔
    ∃ (k : ℕ) (op : Operation I O), ops[k]? = some op ∧
      (e = op.callEntry (id + k) ∨ e = op.returnEntry (id + k)) := by
  induction ops generalizing id with
  | nil => simp [entriesFrom]
  | cons op rest ih =>
    rw [entriesFrom, List.mem_cons, List.mem_cons, ih, ← or_assoc]
    constructor
    · rintro (h | ⟨k, op', hk, h⟩)
      · exact ⟨0, op, rfl, h⟩
      · refine ⟨k + 1, op', hk, ?_⟩
        rwa [show id + (k + 1) = id + 1 + k by omega]
    · rintro ⟨k, op', hk, h⟩
      cases k with
      | zero =>
        obtain rfl : op = op' := by simpa using hk
        exact Or.inl h
      | succ k =>
        refine Or.inr ⟨k, op', hk, ?_⟩
        rwa [show id + 1 + k = id + (k + 1) by omega]

/-- Number and kind tell entries apart. -/
def Entry.tag (e : Entry I O) : ℕ × Bool := (e.id, e.isCall)

@[simp] theorem Operation.callEntry_tag : (op.callEntry i).tag = (i, true) := rfl

@[simp] theorem Operation.returnEntry_tag : (op.returnEntry i).tag = (i, false) := rfl

/-- At the same time, a call goes before a return. -/
theorem less_call_return (op op' : Operation I O) (i j : ℕ) :
    less (op.callEntry i) (op'.returnEntry j) = decide (op.call ≤ op'.ret) := by
  change (if op.call ≠ op'.ret then decide (op.call < op'.ret) else true && !false) = _
  by_cases h : op.call = op'.ret
  · simp [h]
  · simp [h, le_iff_lt_or_eq]

theorem less_return_call (op op' : Operation I O) (i j : ℕ) :
    less (op'.returnEntry j) (op.callEntry i) = decide (op'.ret < op.call) := by
  change (if op'.ret ≠ op.call then decide (op'.ret < op.call) else false && !true) = _
  by_cases h : op'.ret = op.call
  · simp [h]
  · simp [h]

theorem entriesFrom_tags (id : ℕ) (ops : List (Operation I O)) :
    ((entriesFrom id ops).map Entry.tag).Nodup := by
  induction ops generalizing id with
  | nil => exact List.nodup_nil
  | cons op rest ih =>
    have hlt : ∀ t ∈ (entriesFrom (id + 1) rest).map Entry.tag, id < t.1 := by
      intro t ht
      obtain ⟨e, he, rfl⟩ := List.mem_map.mp ht
      obtain ⟨k, op', -, rfl | rfl⟩ := mem_entriesFrom.mp he <;> simp <;> omega
    simp only [entriesFrom, List.map_cons, List.nodup_cons, List.mem_cons, not_or,
      Operation.callEntry_tag, Operation.returnEntry_tag]
    exact ⟨⟨by simp, fun h ↦ lt_irrefl _ (hlt _ h)⟩, fun h ↦ lt_irrefl _ (hlt _ h), ih _⟩

section

variable (s : TimeSort I O)

theorem makeEntries_perm (ops : List (Operation I O)) :
    (makeEntries s ops).Perm (entriesFrom 0 ops) := s.perm _

theorem size_makeEntries (ops : List (Operation I O)) : size (makeEntries s ops) = ops.length := by
  rw [size, (makeEntries_perm s ops).length_eq, entriesFrom_length]
  omega

theorem mem_makeEntries {e : Entry I O} : e ∈ makeEntries s ops ↔
    ∃ (k : ℕ) (op : Operation I O), ops[k]? = some op ∧
      (e = op.callEntry k ∨ e = op.returnEntry k) := by
  rw [(makeEntries_perm s ops).mem_iff, mem_entriesFrom]
  simp only [Nat.zero_add]

/-- Every entry has its own tag. -/
theorem makeEntries_tag_inj {p q : ℕ} {e e' : Entry I O} (hp : (makeEntries s ops)[p]? = some e)
    (hq : (makeEntries s ops)[q]? = some e') (h : e.tag = e'.tag) : p = q := by
  have hnd : ((makeEntries s ops).map Entry.tag).Nodup :=
    ((makeEntries_perm s ops).map _).nodup_iff.mpr (entriesFrom_tags 0 ops)
  obtain ⟨hp', rfl⟩ := List.getElem?_eq_some_iff.mp hp
  obtain ⟨hq', rfl⟩ := List.getElem?_eq_some_iff.mp hq
  rw [← List.getElem_map Entry.tag (h := by simpa using hp'),
    ← List.getElem_map Entry.tag (h := by simpa using hq')] at h
  exact (List.Nodup.getElem_inj_iff hnd).mp h

theorem getElem?_callPos (hi : ops[i]? = some op) :
    (makeEntries s ops)[callPos (makeEntries s ops) i]? = some (op.callEntry i) := by
  have hmem : op.callEntry i ∈ makeEntries s ops := (mem_makeEntries s).mpr ⟨i, op, hi, Or.inl rfl⟩
  have hlt : callPos (makeEntries s ops) i < (makeEntries s ops).length :=
    List.findIdx_lt_length_of_exists ⟨_, hmem, by simp [Operation.callEntry, Entry.isCall]⟩
  have hget : (fun e : Entry I O ↦ e.id == i && e.isCall)
      (makeEntries s ops)[callPos (makeEntries s ops) i] = true := List.findIdx_getElem (w := hlt)
  obtain ⟨p, hp⟩ := List.getElem?_of_mem hmem
  have hq := List.getElem?_eq_getElem hlt
  have htag : (makeEntries s ops)[callPos (makeEntries s ops) i].tag = (op.callEntry i).tag := by
    rw [Operation.callEntry_tag]
    simpa [Entry.tag] using hget
  rw [makeEntries_tag_inj s hq hp htag, hp]

theorem getElem?_returnPos (hi : ops[i]? = some op) :
    (makeEntries s ops)[returnPos (makeEntries s ops) i]? = some (op.returnEntry i) := by
  have hmem : op.returnEntry i ∈ makeEntries s ops :=
    (mem_makeEntries s).mpr ⟨i, op, hi, Or.inr rfl⟩
  have hlt : returnPos (makeEntries s ops) i < (makeEntries s ops).length :=
    List.findIdx_lt_length_of_exists ⟨_, hmem, by simp [Operation.returnEntry, Entry.isCall]⟩
  have hget : (fun e : Entry I O ↦ e.id == i && !e.isCall)
      (makeEntries s ops)[returnPos (makeEntries s ops) i] = true := List.findIdx_getElem (w := hlt)
  obtain ⟨p, hp⟩ := List.getElem?_of_mem hmem
  have hq := List.getElem?_eq_getElem hlt
  have htag : (makeEntries s ops)[returnPos (makeEntries s ops) i].tag =
      (op.returnEntry i).tag := by
    rw [Operation.returnEntry_tag]
    simpa [Entry.tag] using hget
  rw [makeEntries_tag_inj s hq hp htag, hp]

/-- What comes first in the sorted history is not later in time. -/
theorem less_of_lt {p q : ℕ} {e e' : Entry I O} (hp : (makeEntries s ops)[p]? = some e)
    (hq : (makeEntries s ops)[q]? = some e') (hlt : p < q) : less e' e = false := by
  obtain ⟨hp', rfl⟩ := List.getElem?_eq_some_iff.mp hp
  obtain ⟨hq', rfl⟩ := List.getElem?_eq_some_iff.mp hq
  exact List.pairwise_iff_getElem.mp (s.sorted _) p q hp' hq' hlt

/-- **Positions and times agree**: an operation had returned when another one was called. -/
theorem return_lt_call_iff {op' : Operation I O} (hi : ops[i]? = some op)
    (hj : ops[j]? = some op') :
    returnPos (makeEntries s ops) j < callPos (makeEntries s ops) i ↔ op'.ret < op.call := by
  have hc := getElem?_callPos s hi
  have hr := getElem?_returnPos s hj
  constructor
  · intro hlt
    have hless := less_of_lt s hr hc hlt
    rw [less_call_return, decide_eq_false_iff_not, not_le] at hless
    exact hless
  · intro hlt
    by_contra hge
    rcases lt_or_eq_of_le (not_lt.mp hge) with hlt' | heq
    · have hless := less_of_lt s hc hr hlt'
      rw [less_return_call, decide_eq_false_iff_not] at hless
      exact hless hlt
    · rw [heq, hr] at hc
      simp [Operation.callEntry, Operation.returnEntry] at hc

/-- **The history is matched.** -/
theorem matched_makeEntries (hint : ∀ op ∈ ops, op.call ≤ op.ret) :
    Matched (makeEntries s ops) := by
  have hget : ∀ {i}, i < size (makeEntries s ops) → ∃ op, ops[i]? = some op := fun hi ↦
    ⟨_, List.getElem?_eq_getElem (size_makeEntries s ops ▸ hi)⟩
  refine ⟨fun i hi ↦ ?_, fun i hi ↦ ?_, fun p hp ↦ ?_⟩
  · obtain ⟨op, hop⟩ := hget hi
    have hle := hint op (List.mem_of_getElem? hop)
    have hge := mt (return_lt_call_iff s hop hop).mp (not_lt.mpr hle)
    refine lt_of_le_of_ne (not_lt.mp hge) fun heq ↦ ?_
    have hc := getElem?_callPos s hop
    rw [heq, getElem?_returnPos s hop] at hc
    simp [Operation.callEntry, Operation.returnEntry] at hc
  · obtain ⟨op, hop⟩ := hget hi
    exact (List.getElem?_eq_some_iff.mp (getElem?_returnPos s hop)).1
  · obtain ⟨k, op, hop, he⟩ := (mem_makeEntries s).mp (List.getElem_mem hp)
    have hp' := List.getElem?_eq_getElem hp
    refine ⟨k, ?_, ?_⟩
    · rw [size_makeEntries]
      exact (List.getElem?_eq_some_iff.mp hop).1
    · rcases he with he | he
      · exact Or.inl (makeEntries_tag_inj s hp' (getElem?_callPos s hop) (by rw [he]))
      · exact Or.inr (makeEntries_tag_inj s hp' (getElem?_returnPos s hop) (by rw [he]))

end

/-! ## Linearizability -/

/-- The object takes one operation. -/
def runOp (step : S → I → O → Bool × S) (s : S) (op : Operation I O) : Option S :=
  let (ok, s') := step s op.input op.output
  if ok then some s' else none

/-- **A history of operations is linearizable**: its operations have an order that the object
accepts and in which none comes before one that had returned when it was called. -/
def Linearizable (init : S) (step : S → I → O → Bool × S) (ops : List (Operation I O)) : Prop :=
  ∃ order : List (Operation I O), order.Perm ops ∧ (order.foldlM (runOp step) init).isSome ∧
    order.Pairwise fun a b ↦ ¬ b.ret < a.call

/-- A condition on pairs carries over to a list that is related element by element. -/
theorem forall₂_pairwise {α β : Type*} {R : α → β → Prop} {P : α → α → Prop} {Q : β → β → Prop}
    {l : List α} {l' : List β} (h : List.Forall₂ R l l')
    (hPQ : ∀ a b a' b', R a b → R a' b' → P a a' → Q b b') (hl : l.Pairwise P) :
    l'.Pairwise Q := by
  induction h with
  | nil => exact List.Pairwise.nil
  | @cons a b l l' hab h ih =>
    obtain ⟨ha, hrest⟩ := List.pairwise_cons.mp hl
    refine List.pairwise_cons.mpr ⟨?_, ih hrest⟩
    clear ih hl hrest
    induction h with
    | nil => simp
    | cons hab' _ ih =>
      rw [List.forall_mem_cons] at ha ⊢
      exact ⟨hPQ _ _ _ _ hab hab' ha.1, ih ha.2⟩

theorem foldlM_congr {α β : Type} {R : α → β → Prop} {f : S → α → Option S} {g : S → β → Option S}
    {l : List α} {l' : List β} (h : List.Forall₂ R l l')
    (hfg : ∀ s a b, R a b → f s a = g s b) (s : S) : l.foldlM f s = l'.foldlM g s := by
  induction h generalizing s with
  | nil => rfl
  | cons hab _ ih =>
    rw [List.foldlM_cons, List.foldlM_cons, hfg s _ _ hab]
    exact bind_congr ih

theorem opStep_makeEntries (s : TimeSort I O) (model : Model S I O) (hi : ops[i]? = some op)
    (t : S) : opStep model (makeEntries s ops) t i = runOp model.step t op := by
  rw [opStep, getElem?_callPos s hi, getElem?_returnPos s hi]
  rfl

theorem forall₂_range (ops : List (Operation I O)) :
    List.Forall₂ (fun i op ↦ ops[i]? = some op) (List.range ops.length) ops := by
  rw [List.forall₂_iff_get]
  refine ⟨List.length_range, fun i h _ ↦ ?_⟩
  simp

/-- **What the checker looks for** is linearizability. -/
theorem exists_linearization_iff (s : TimeSort I O) (model : Model S I O)
    (ops : List (Operation I O)) :
    (∃ seq, Linearization model (makeEntries s ops) seq) ↔
      Linearizable model.init model.step ops := by
  -- numbers stand for operations
  have hfold : ∀ {seq order}, List.Forall₂ (fun i op ↦ ops[i]? = some op) seq order →
      seq.foldlM (opStep model (makeEntries s ops)) model.init =
        order.foldlM (runOp model.step) model.init := fun h ↦
    foldlM_congr h (fun t _ _ hi ↦ opStep_makeEntries s model hi t) _
  constructor
  · rintro ⟨seq, hperm, hlegal, hrt⟩
    rw [size_makeEntries] at hperm
    obtain ⟨order, hrel, hperm'⟩ := List.perm_comp_forall₂ hperm (forall₂_range ops)
    exact ⟨order, hperm', hfold hrel ▸ hlegal, forall₂_pairwise hrel
      (fun _ _ _ _ hi hj ↦ mt (return_lt_call_iff s hi hj).mpr) hrt⟩
  · rintro ⟨order, hperm, hlegal, hrt⟩
    obtain ⟨seq, hflip, hperm'⟩ := List.perm_comp_forall₂ hperm (forall₂_range ops).flip
    have hrel := hflip.flip
    refine ⟨seq, ?_, (hfold hrel).symm ▸ hlegal, forall₂_pairwise hflip
      (fun _ _ _ _ hi hj ↦ mt (return_lt_call_iff s hi hj).mp) hrt⟩
    rwa [size_makeEntries]

end DistLabs.Porcupine
