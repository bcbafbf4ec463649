import DistLabs.Porcupine.Nodes
import Mathlib.Logic.Relation

/-!
# The search tree of the checker

The loop of `checkSingle` is a search without a recursion: the open choices are in `calls`, and what
is left to try is in the linked list.  Here it is taken apart again.  At a node of the tree, which
is the beginning `seq` of an order, the loop tries one call after the other, and below each call
that the model accepts it searches the whole subtree and comes back with everything as it was,
except for what it has learned (`explore`).

What it has learned is that a subtree has nothing to offer (`Settled`): no order that starts there
is complete, and none with one of its operations is longer than the one that is recorded for this
operation.  Everything in the cache is settled, or is still open because the loop is in the middle
of it (`Open`).  The sets that are open are too small to be met again, so a hit of the cache is
always settled.
-/

set_option autoImplicit false

namespace DistLabs.Porcupine

variable {S I O : Type} {model : Model S I O} {history : List (Entry I O)}

/-! ## States that are equal for the model -/

/-- States that are equal for the model cannot be told apart by operations. -/
structure Model.Congruent (model : Model S I O) : Prop where
  /-- They accept the same results. -/
  verdict : ∀ {s t}, model.equal s t = true → ∀ input output,
    (model.step s input output).1 = (model.step t input output).1
  /-- And lead to equal states. -/
  next : ∀ {s t}, model.equal s t = true → ∀ input output,
    (model.step s input output).1 = true →
      model.equal (model.step s input output).2 (model.step t input output).2 = true

theorem Model.Congruent.opStep (hc : model.Congruent) {s t s' : S} {i : ℕ}
    (he : model.equal s t = true) (hs : opStep model history s i = some s') :
    ∃ t', opStep model history t i = some t' ∧ model.equal s' t' = true := by
  rw [Porcupine.opStep] at hs ⊢
  split at hs
  · next input output h1 h2 =>
    dsimp only at hs ⊢
    split at hs
    · next hok =>
      obtain rfl := Option.some_inj.mp hs
      rw [← hc.verdict he, if_pos hok]
      exact ⟨_, rfl, hc.next he _ _ hok⟩
    · simp at hs
  · simp at hs

theorem Runs.congr (hc : model.Congruent) {done : Finset ℕ} {s t : S} {seq : List ℕ}
    (h : Runs model history done s seq) (he : model.equal s t = true) :
    Runs model history done t seq := by
  induction seq generalizing done s t with
  | nil => trivial
  | cons i rest ih =>
    obtain ⟨hfit, s', hs', hrest⟩ := h
    obtain ⟨t', ht', he'⟩ := hc.opStep he hs'
    exact ⟨hfit, t', ht', ih hrest he'⟩

/-! ## The longest orders -/

/-- The order that is recorded for operation `j` has at least `k` operations. -/
def Reached (longest : Longest) (j k : ℕ) : Prop :=
  ∃ l, longest[j]? = some (some l) ∧ k ≤ l.length

/-- Recorded orders only become longer. -/
def Grows (longest longest' : Longest) : Prop := ∀ j k, Reached longest j k → Reached longest' j k

/-- What is recorded for an operation is a beginning of an order with it. -/
structure Recorded (model : Model S I O) (history : List (Entry I O)) (longest : Longest) :
    Prop where
  /-- There is a place for every operation. -/
  length : longest.length = size history
  /-- The orders. -/
  sound : ∀ j l, longest[j]? = some (some l) →
    ∃ seq : List ℕ, l = seq.map Int.ofNat ∧ PartialLinearization model history seq ∧ j ∈ seq

/-- One record. -/
theorem recordOne_spec (seq : List Int) {longest : Longest} {j : ℕ} (hj : j < longest.length) :
    ∃ longest', Loop.recordOne seq longest j = some longest' ∧
      longest'.length = longest.length ∧ Grows longest longest' ∧ Reached longest' j seq.length ∧
      ∀ j' l, longest'[j']? = some (some l) → longest[j']? = some (some l) ∨ j' = j ∧ l = seq := by
  have hget := List.getElem?_eq_getElem hj
  -- writing the order gives what is wanted, if the old one is not longer
  have hset : (∀ l, longest[j] = some l → l.length ≤ seq.length) →
      (longest.set j (some seq)).length = longest.length ∧ Grows longest (longest.set j (some seq))
      ∧
      Reached (longest.set j (some seq)) j seq.length ∧
      ∀ j' l, (longest.set j (some seq))[j']? = some (some l) →
        longest[j']? = some (some l) ∨ j' = j ∧ l = seq := by
    intro hold
    have hself : (longest.set j (some seq))[j]? = some (some seq) := by simp [hj]
    refine ⟨List.length_set .., fun j' k ⟨l, hl, hk⟩ ↦ ?_, ⟨seq, hself, le_rfl⟩, fun j' l hl ↦ ?_⟩
    · rcases eq_or_ne j j' with rfl | hne
      · exact ⟨seq, hself, hk.trans (hold l (by rwa [hget, Option.some_inj] at hl))⟩
      · exact ⟨l, by rwa [List.getElem?_set_ne hne], hk⟩
    · rcases eq_or_ne j j' with rfl | hne
      · rw [hself] at hl
        exact Or.inr ⟨rfl, by simpa using hl.symm⟩
      · exact Or.inl (by rwa [List.getElem?_set_ne hne] at hl)
  rw [Loop.recordOne, hget, Option.bind_eq_bind, Option.bind_some]
  cases hold : longest[j] with
  | none => exact ⟨_, rfl, hset (by simp [hold])⟩
  | some old =>
    dsimp only
    by_cases hlt : seq.length > old.length
    · rw [if_pos hlt]
      refine ⟨_, rfl, hset fun l hl ↦ ?_⟩
      rw [hold, Option.some_inj] at hl
      exact hl ▸ hlt.le
    · rw [if_neg hlt]
      exact ⟨_, rfl, rfl, fun _ _ h ↦ h, ⟨old, by rw [hget, hold], not_lt.mp hlt⟩,
        fun _ _ h ↦ Or.inl h⟩

/-- All records of one order. -/
theorem record_spec (seq : List Int) (js : List ℕ) {longest : Longest}
    (hjs : ∀ j ∈ js, j < longest.length) :
    ∃ longest', js.foldlM (Loop.recordOne seq) longest = some longest' ∧
      longest'.length = longest.length ∧ Grows longest longest' ∧
      (∀ j ∈ js, Reached longest' j seq.length) ∧
      ∀ j l, longest'[j]? = some (some l) → longest[j]? = some (some l) ∨ j ∈ js ∧ l = seq := by
  induction js generalizing longest with
  | nil => exact ⟨longest, rfl, rfl, fun _ _ h ↦ h, by simp, fun _ _ h ↦ Or.inl h⟩
  | cons j rest ih =>
    obtain ⟨l₁, h₁, hlen₁, hgrow₁, hreach₁, hsound₁⟩ := recordOne_spec seq (hjs j (by simp))
    have hrest : ∀ j' ∈ rest, j' < l₁.length := fun j' hj' ↦ hlen₁ ▸ hjs j' (by simp [hj'])
    obtain ⟨l₂, h₂, hlen₂, hgrow₂, hreach₂, hsound₂⟩ := ih hrest
    refine ⟨l₂, ?_, hlen₂.trans hlen₁, fun j' k h ↦ hgrow₂ j' k (hgrow₁ j' k h), ?_, ?_⟩
    · rw [List.foldlM_cons, h₁]
      exact h₂
    · intro j' hj'
      rcases List.mem_cons.mp hj' with rfl | hj'
      · exact hgrow₂ _ _ hreach₁
      · exact hreach₂ j' hj'
    · intro j' l hl
      rcases hsound₂ j' l hl with hl | ⟨hj', rfl⟩
      · rcases hsound₁ j' l hl with hl | ⟨rfl, rfl⟩
        · exact Or.inl hl
        · exact Or.inr ⟨by simp, rfl⟩
      · exact Or.inr ⟨by simp [hj'], rfl⟩

/-! ## What has been settled -/

/-- Nothing that continues `done` from state `s` is complete, or longer than what is recorded for
one of its operations. -/
def Settled (model : Model S I O) (history : List (Entry I O)) (computePartial : Bool)
    (longest : Longest) (done : Finset ℕ) (s : S) : Prop :=
  ∀ more, Runs model history done s more → done.card + more.length < size history ∧
    (computePartial = true → ∀ j ∈ done ∪ more.toFinset,
      Reached longest j (done.card + more.length))

/-- The loop is in the middle of the subtree at `done`. -/
def Open (model : Model S I O) (history : List (Entry I O)) (seq : List ℕ) (done : Finset ℕ)
    (s : S) : Prop :=
  ∃ before, before <+: seq ∧ before.toFinset = done ∧
    before.foldlM (opStep model history) model.init = some s

/-- Everything in the cache is open or settled. -/
def Cached (model : Model S I O) (history : List (Entry I O)) (computePartial : Bool)
    (longest : Longest) (seq : List ℕ) (cache : Cache S) : Prop :=
  ∀ hash, ∀ e ∈ cache hash, ∃ done, e.1.Holds done ∧
    (Open model history seq done e.2 ∨
      Settled model history computePartial longest done e.2)

variable {computePartial : Bool} {longest longest' : Longest} {done : Finset ℕ} {s s' : S}
  {seq : List ℕ} {i : ℕ} {cache : Cache S}

theorem Settled.mono (h : Settled model history computePartial longest done s)
    (hg : Grows longest longest') : Settled model history computePartial longest' done s :=
  fun more hmore ↦ ⟨(h more hmore).1, fun hp j hj ↦ hg _ _ ((h more hmore).2 hp j hj)⟩

/-- **A subtree is settled** when all its children are and its own order is recorded. -/
theorem settled_of_children (hlt : done.card < size history)
    (hself : computePartial = true → ∀ j ∈ done, Reached longest j done.card)
    (hchild : ∀ i s', Fits history done i → opStep model history s i = some s' →
      Settled model history computePartial longest (insert i done) s') :
    Settled model history computePartial longest done s := by
  intro more hmore
  cases more with
  | nil => exact ⟨hlt, fun hp j hj ↦ hself hp j (by simpa using hj)⟩
  | cons i rest =>
    obtain ⟨hfit, s', hs', hrest⟩ := hmore
    obtain ⟨hsize, hreach⟩ := hchild i s' hfit hs' rest hrest
    rw [Finset.card_insert_of_notMem hfit.new] at hsize hreach
    have hlen : done.card + (i :: rest).length = done.card + 1 + rest.length := by
      rw [List.length_cons]
      omega
    rw [hlen, List.toFinset_cons, Finset.union_insert, ← Finset.insert_union]
    exact ⟨hsize, hreach⟩

/-- **A hit of the cache** beyond the open sets is settled. -/
theorem Cached.settled (h : Cached model history computePartial longest seq cache)
    (hc : model.Congruent) {b : Bitset} (hb : b.Holds done) (hcard : seq.length < done.card)
    (hhit : cacheContains model cache (b, s) = true) :
    Settled model history computePartial longest done s := by
  obtain ⟨⟨b', t⟩, hmem, heq⟩ := List.any_eq_true.mp hhit
  rw [Bool.and_eq_true, Bitset.equals_iff] at heq
  obtain ⟨rfl, hst⟩ := heq
  obtain ⟨done', hb', hcase⟩ := h _ _ hmem
  obtain rfl := hb.inj hb'
  rcases hcase with ⟨before, hpre, rfl, -⟩ | hset
  · have h1 := List.toFinset_card_le before
    have h2 := hpre.length_le
    omega
  · exact fun more hmore ↦ hset more (hmore.congr hc hst)

/-- The next subtree is entered. -/
theorem Cached.push (h : Cached model history computePartial longest seq cache) {b : Bitset}
    (hb : b.Holds (seq ++ [i]).toFinset)
    (hs : (seq ++ [i]).foldlM (opStep model history) model.init = some s) :
    Cached model history computePartial longest (seq ++ [i]) (cache.add (b, s)) := by
  intro hash e he
  by_cases hh : hash = b.hash
  · subst hh
    rw [Cache.add, Function.update_self] at he
    rcases List.mem_append.mp he with he | he
    · obtain ⟨done, hd, ho | hset⟩ := h _ e he
      · obtain ⟨before, hpre, hrest⟩ := ho
        exact ⟨done, hd, Or.inl ⟨before, hpre.trans (List.prefix_append ..), hrest⟩⟩
      · exact ⟨done, hd, Or.inr hset⟩
    · obtain rfl := List.mem_singleton.mp he
      exact ⟨_, hb, Or.inl ⟨_, List.prefix_rfl, rfl, hs⟩⟩
  · rw [Cache.add, Function.update_of_ne hh] at he
    obtain ⟨done, hd, ho | hset⟩ := h _ e he
    · obtain ⟨before, hpre, hrest⟩ := ho
      exact ⟨done, hd, Or.inl ⟨before, hpre.trans (List.prefix_append ..), hrest⟩⟩
    · exact ⟨done, hd, Or.inr hset⟩

/-- And left. -/
theorem Cached.pop (h : Cached model history computePartial longest (seq ++ [i]) cache)
    (hs : (seq ++ [i]).foldlM (opStep model history) model.init = some s)
    (hset : Settled model history computePartial longest' (seq ++ [i]).toFinset s)
    (hg : Grows longest longest') :
    Cached model history computePartial longest' seq cache := by
  intro hash e he
  obtain ⟨done, hd, ho | hold⟩ := h hash e he
  · obtain ⟨before, hpre, hdone, hstate⟩ := ho
    rcases List.prefix_concat_iff.mp hpre with rfl | hpre
    · rw [hs, Option.some_inj] at hstate
      exact ⟨done, hd, Or.inr (by rwa [← hstate, ← hdone])⟩
    · exact ⟨done, hd, Or.inl ⟨before, hpre, hdone, hstate⟩⟩
  · exact ⟨done, hd, Or.inr (hold.mono hg)⟩

/-! ## Where the loop is -/

/-- The variables of the loop at the node `seq` of the search tree. -/
structure At (model : Model S I O) (history : List (Entry I O)) (L : Loop S I O) (seq : List ℕ) :
    Prop where
  /-- The list has the entries that are left. -/
  chain : L.heap.Chain (history.length :: rem history seq.toFinset)
  /-- The nodes are those of the history. -/
  fields : Fields history L.heap
  /-- The bitset has the operations of the order. -/
  holds : L.linearized.Holds seq.toFinset
  /-- There is room for all. -/
  room : size history ≤ 64 * L.linearized.length
  /-- The calls are those of the order. -/
  calls : L.calls.map Prod.fst = seq.map (callPos history)
  /-- It is the beginning of an order. -/
  runs : PartialLinearization model history seq
  /-- The state is the one after it. -/
  state : seq.foldlM (opStep model history) model.init = some L.state

/-- A turn after which the loop goes on. -/
def Next (model : Model S I O) (computePartial : Bool) (history : List (Entry I O))
    (L L' : Loop S I O) : Prop :=
  L.turn model computePartial false history.length = some (.next L')

variable {L L' : Loop S I O}

namespace At

variable (ha : At model history L seq)
include ha

theorem card : seq.toFinset.card = seq.length := List.toFinset_card_of_nodup ha.runs.nodup.1

theorem lt_size : ∀ i ∈ seq.toFinset, i < size history :=
  fun i hi ↦ (ha.runs.nodup.2 i (List.mem_toFinset.mp hi)).1

theorem next_head : L.heap.next history.length = (rem history seq.toFinset).head? :=
  ha.chain.next_head

theorem next_head_ne (hlt : seq.length < size history) (hm : Matched history) :
    L.heap.next history.length ≠ none := by
  rw [ha.next_head, Ne, List.head?_eq_none_iff]
  exact (hm.rem_ne_nil_iff ha.lt_size).mpr (ha.card ▸ hlt)

/-- The operations of the order, as the code has them. -/
theorem seq_eq (hm : Matched history) : L.seq = seq.map Int.ofNat := by
  have hmap : L.seq = (L.calls.map Prod.fst).map L.heap.id := by
    rw [Loop.seq, List.map_map]
    rfl
  rw [hmap, ha.calls, List.map_map]
  refine List.map_congr_left fun i hi ↦ ?_
  have hi := ha.lt_size i (List.mem_toFinset.mpr hi)
  rw [Function.comp_apply, ha.fields.id _ ((hm.call_lt i hi).trans (hm.return_lt i hi)),
    hm.idAt_call hi]
  rfl

/-- What the code does with a call is what the model says. -/
theorem tryCall_eq (hm : Matched history) (hi : i < size history) :
    L.tryCall model history.length (callPos history i) (returnPos history i) =
      (match opStep model history L.state i with
      | none => some { L with entry := L.heap.next (callPos history i) }
      | some newState => (L.linearized.set i).bind fun newLinearized ↦
        if cacheContains model L.cache (newLinearized, newState) then
          some { L with entry := L.heap.next (callPos history i) }
        else (L.heap.lift (callPos history i)).bind fun heap ↦ some { L with
          heap := heap
          entry := heap.next history.length
          state := newState
          linearized := newLinearized
          cache := L.cache.add (newLinearized, newState)
          calls := L.calls ++ [(callPos history i, L.state)] }) := by
  obtain ⟨e, input, he, hid, hk⟩ := hm.call_spec hi
  obtain ⟨e', output, he', hid', hk'⟩ := hm.return_spec hi
  have hc := (hm.call_lt i hi).trans (hm.return_lt i hi)
  have hv : L.heap.value (callPos history i) = some (.call input) := by
    rw [ha.fields.value _ hc, he, Option.map_some, hk]
  have hv' : L.heap.value (returnPos history i) = some (.return output) := by
    rw [ha.fields.value _ (hm.return_lt i hi), he', Option.map_some, hk']
  have hop : opStep model history L.state i =
      if (model.step L.state input output).1 then some (model.step L.state input output).2
      else none := by
    rw [opStep, he, he', Option.map_some, Option.map_some, hk, hk']
  have hidc : (L.heap.id (callPos history i)).toNat = i := by
    rw [ha.fields.id _ hc, hm.idAt_call hi, Int.toNat_natCast]
  rw [hop, Loop.tryCall, hv, hv']
  dsimp only
  rw [hidc]
  cases (model.step L.state input output).1 <;> rfl

/-- A turn at a call. -/
theorem turn_call (computePartial : Bool) (hm : Matched history) (hi : i < size history)
    (hnew : i ∉ seq)
    (he : L.entry = some (callPos history i)) :
    L.turn model computePartial false history.length =
      (L.tryCall model history.length (callPos history i) (returnPos history i)).map .next := by
  have hne : L.heap.next history.length ≠ none := by
    rw [ha.next_head, Ne, List.head?_eq_none_iff]
    exact List.ne_nil_of_mem (hm.call_mem_rem hi (by simpa using hnew))
  rw [Loop.turn, if_neg hne, he]
  simp only [Bool.false_eq_true, if_false, Option.bind_eq_bind, Option.bind_some,
    ha.fields.call i hi]
  cases L.tryCall model history.length (callPos history i) (returnPos history i) <;> rfl

/-- A turn at a return, with a call to put back. -/
theorem turn_return (computePartial : Bool) (hm : Matched history) (hi : i < size history)
    (hnew : i ∉ seq)
    (he : L.entry = some (returnPos history i)) {calls : List (ℕ × S)} {c : ℕ} {t : S}
    (hcalls : L.calls = calls ++ [(c, t)]) :
    L.turn model computePartial false history.length =
      (L.backtrack computePartial c t).map .next := by
  have hne : L.heap.next history.length ≠ none := by
    rw [ha.next_head, Ne, List.head?_eq_none_iff]
    exact List.ne_nil_of_mem (hm.return_mem_rem hi (by simpa using hnew))
  rw [Loop.turn, if_neg hne, he]
  simp only [Bool.false_eq_true, if_false, Option.bind_eq_bind, Option.bind_some,
    ha.fields.return_none i hi, hcalls, List.getLast?_append, List.getLast?_singleton,
    Option.some_or]
  cases L.backtrack computePartial c t <;> rfl

/-- What is recorded when a call is put back. -/
theorem record_eq (computePartial : Bool) (hm : Matched history)
    (hrec : Recorded model history L.longest) :
    ∃ longest, (if computePartial then L.record else some L.longest) = some longest ∧
      Recorded model history longest ∧ Grows L.longest longest ∧
      (computePartial = true → ∀ j ∈ seq, Reached longest j seq.length) := by
  cases computePartial with
  | false => exact ⟨L.longest, rfl, hrec, fun _ _ h ↦ h, by simp⟩
  | true =>
    have hjs : ∀ j ∈ seq, j < L.longest.length := fun j hj ↦ by
      rw [hrec.length]
      exact ha.lt_size j (List.mem_toFinset.mpr hj)
    obtain ⟨longest, heq, hlen, hgrow, hreach, hsound⟩ :=
      record_spec (seq.map Int.ofNat) seq hjs
    have hfold : L.record = seq.foldlM (Loop.recordOne (seq.map Int.ofNat)) L.longest := by
      rw [Loop.record, ha.seq_eq hm, List.foldlM_map]
      rfl
    refine ⟨longest, by rw [if_pos rfl, hfold, heq], ⟨hlen.trans hrec.length, ?_⟩, hgrow, ?_⟩
    · intro j l hl
      rcases hsound j l hl with hl | ⟨hj, rfl⟩
      · exact hrec.sound j l hl
      · exact ⟨seq, rfl, ha.runs, hj⟩
    · intro _ j hj
      simpa using hreach j hj

end At

/-- Only some of the variables say where the loop is. -/
structure SamePlace (L L' : Loop S I O) : Prop where
  /-- The nodes. -/
  heap : L'.heap = L.heap
  /-- The state. -/
  state : L'.state = L.state
  /-- The bitset. -/
  linearized : L'.linearized = L.linearized
  /-- The stack. -/
  calls : L'.calls = L.calls

theorem SamePlace.trans {L'' : Loop S I O} (h : SamePlace L L') (h' : SamePlace L' L'') :
    SamePlace L L'' :=
  ⟨h'.heap.trans h.heap, h'.state.trans h.state, h'.linearized.trans h.linearized,
    h'.calls.trans h.calls⟩

theorem At.congr (ha : At model history L seq) (h : SamePlace L L') : At model history L' seq where
  chain := h.heap ▸ ha.chain
  fields := h.heap ▸ ha.fields
  holds := h.linearized ▸ ha.holds
  room := h.linearized ▸ ha.room
  calls := h.calls ▸ ha.calls
  runs := ha.runs
  state := h.state ▸ ha.state

theorem toFinset_concat (seq : List ℕ) (i : ℕ) :
    (seq ++ [i]).toFinset = insert i seq.toFinset := by
  rw [List.toFinset_append, List.toFinset_cons, List.toFinset_nil, insert_empty_eq,
    Finset.union_comm, ← Finset.insert_eq]

theorem foldlM_concat (hs : seq.foldlM (opStep model history) model.init = some s)
    (hop : opStep model history s i = some s') :
    (seq ++ [i]).foldlM (opStep model history) model.init = some s' := by
  rw [List.foldlM_append, hs, Option.bind_eq_bind, Option.bind_some, List.foldlM_cons, hop]
  rfl

/-- **A call goes into the order**, and can be put back. -/
theorem At.push (ha : At model history L seq) (hm : Matched history)
    (hfit : Fits history seq.toFinset i) (hop : opStep model history L.state i = some s')
    {b : Bitset} (hset : L.linearized.set i = some b) :
    ∃ heap, L.heap.lift (callPos history i) = some heap ∧
      heap.unlift (callPos history i) = some L.heap ∧
      ∀ L₁ : Loop S I O, L₁.heap = heap → L₁.state = s' → L₁.linearized = b →
        L₁.calls = L.calls ++ [(callPos history i, L.state)] →
        At model history L₁ (seq ++ [i]) := by
  obtain ⟨before, mid, after, hrem⟩ := hm.rem_split hfit.lt hfit.new
  have hnd : (history.length :: rem history seq.toFinset).Nodup :=
    List.nodup_cons.mpr ⟨fun h ↦ lt_irrefl _ (mem_rem.mp h).1, rem_nodup ..⟩
  have hchain := ha.chain
  rw [hrem, ← List.cons_append] at hnd hchain
  obtain ⟨heap, hlift, hchain', hsame, hunlift⟩ :=
    Heap.lift_spec (by simp) hchain hnd (ha.fields.call i hfit.lt)
  refine ⟨heap, hlift, hunlift, fun L₁ h1 h2 h3 h4 ↦ ⟨?_, ?_, ?_, ?_, ?_, ?_, ?_⟩⟩
  · rw [h1, toFinset_concat, hm.rem_insert hfit.lt hrem]
    exact hchain'
  · exact h1 ▸ ha.fields.congr hsame
  · rw [h3, toFinset_concat]
    exact ha.holds.set hset
  · rw [h3, Bitset.set_length hset]
    exact ha.room
  · rw [h4, List.map_append, ha.calls, List.map_append]
    rfl
  · refine Runs.append ha.runs ha.state ?_
    rw [Finset.empty_union]
    exact ⟨hfit, s', hop, trivial⟩
  · rw [h2]
    exact foldlM_concat ha.state hop

/-! ## The search below a node -/

/-- The loop at the node `seq`, with what it has learned so far. -/
structure Searching (model : Model S I O) (history : List (Entry I O)) (computePartial : Bool)
    (L : Loop S I O) (seq : List ℕ) : Prop where
  /-- The place. -/
  at_seq : At model history L seq
  /-- The cache. -/
  cached : Cached model history computePartial L.longest seq L.cache
  /-- The record. -/
  recorded : Recorded model history L.longest

/-- The call at position `q` has been tried. -/
def Tried (model : Model S I O) (history : List (Entry I O)) (computePartial : Bool)
    (longest : Longest) (done : Finset ℕ) (s : S) (q : ℕ) : Prop :=
  q = callPos history (idAt history q) ∧ ∀ s', opStep model history s (idAt history q) = some s' →
    Settled model history computePartial longest (insert (idAt history q) done) s'

/-- All has been tried: the loop is at a return. -/
structure Exhausted (model : Model S I O) (history : List (Entry I O)) (computePartial : Bool)
    (L : Loop S I O) (seq : List ℕ) : Prop
    extends Searching model history computePartial L seq where
  /-- The entry is a return. -/
  entry : ∃ p < size history, p ∉ seq ∧ L.entry = some (returnPos history p)
  /-- Every continuation is settled. -/
  children : ∀ i s', Fits history seq.toFinset i → opStep model history L.state i = some s' →
    Settled model history computePartial L.longest (insert i seq.toFinset) s'

/-- The loop will find an order of all operations. -/
def Succeeds (model : Model S I O) (history : List (Entry I O)) (computePartial : Bool)
    (L : Loop S I O) : Prop :=
  ∃ L' seq, Relation.ReflTransGen (Next model computePartial history) L L' ∧
    At model history L' seq ∧ seq.length = size history ∧ Recorded model history L'.longest

theorem Exhausted.lt_size (h : Exhausted model history computePartial L seq)
    (hm : Matched history) : seq.toFinset.card < size history := by
  obtain ⟨p, hp, hnew, -⟩ := h.entry
  refine (hm.rem_ne_nil_iff h.at_seq.lt_size).mp ?_
  exact List.ne_nil_of_mem (hm.return_mem_rem hp (by simpa using hnew))

/-- What is exhausted is settled once it is recorded. -/
theorem Exhausted.settled (h : Exhausted model history computePartial L seq) (hm : Matched history)
    (hg : Grows L.longest longest)
    (hself : computePartial = true → ∀ j ∈ seq, Reached longest j seq.length) :
    Settled model history computePartial longest seq.toFinset L.state := by
  refine settled_of_children (h.lt_size hm) (fun hp j hj ↦ ?_) fun i s' hfit hop ↦
    (h.children i s' hfit hop).mono hg
  rw [h.at_seq.card]
  exact hself hp j (List.mem_toFinset.mp hj)

/-- **The last call is put back.** -/
theorem Exhausted.pop (h : Exhausted model history computePartial L' (seq ++ [i]))
    (hm : Matched history) (ha : At model history L seq) (hi : i < size history) (hnew : i ∉ seq)
    (hset : L.linearized.set i = some L'.linearized)
    (hundo : L'.heap.unlift (callPos history i) = some L.heap)
    (hcalls : L'.calls = L.calls ++ [(callPos history i, L.state)]) :
    ∃ longest, Next model computePartial history L'
        { L with
          entry := L.heap.next (callPos history i), cache := L'.cache, longest := longest } ∧
      Recorded model history longest ∧ Grows L'.longest longest ∧
      Settled model history computePartial longest (insert i seq.toFinset) L'.state ∧
      Cached model history computePartial longest seq L'.cache := by
  obtain ⟨p, hp, hpnew, hentry⟩ := h.entry
  obtain ⟨longest, hlong, hrec, hgrow, hself⟩ :=
    h.at_seq.record_eq computePartial hm h.recorded
  have hsettled := h.settled hm hgrow hself
  refine ⟨longest, ?_, hrec, hgrow, toFinset_concat seq i ▸ hsettled,
    h.cached.pop h.at_seq.state hsettled hgrow⟩
  have hid : (L'.heap.id (callPos history i)).toNat = i := by
    rw [h.at_seq.fields.id _ ((hm.call_lt i hi).trans (hm.return_lt i hi)), hm.idAt_call hi,
      Int.toNat_natCast]
  have hclear := Bitset.clear_set ha.holds (by simpa using hnew) hset
  rw [Next, h.at_seq.turn_return computePartial hm hp hpnew hentry hcalls, Loop.backtrack, hlong]
  simp only [Option.bind_eq_bind, Option.bind_some, hid, hclear, hundo, hcalls,
    List.dropLast_concat]
  rfl

/-- The walk moves on from a call that is tried. -/
theorem next_eq_of_rem (ha : At model history L seq) {before after : List ℕ} {q : ℕ}
    (hrem : rem history seq.toFinset = before ++ q :: after) : L.heap.next q = after.head? := by
  have hchain := ha.chain
  rw [hrem, ← List.cons_append] at hchain
  exact hchain.next_eq _

/-- One call of the walk at a node: the loop moves on to the next entry, or it tries the call first.
Here the search below the call is given by `hbelow`. -/
theorem try_call (hm : Matched history) (hc : model.Congruent)
    (h : Searching model history computePartial L seq) {before after : List ℕ}
    (hrem : rem history seq.toFinset = before ++ callPos history i :: after)
    (hi : i < size history) (hcalls : ∀ q ∈ before, q = callPos history (idAt history q))
    (hentry : L.entry = some (callPos history i))
    (hbelow : ∀ L₁, Searching model history computePartial L₁ (seq ++ [i]) →
      L₁.entry = (rem history (seq ++ [i]).toFinset).head? →
      Succeeds model history computePartial L₁ ∨
        ∃ L₂, Relation.ReflTransGen (Next model computePartial history) L₁ L₂ ∧ SamePlace L₁ L₂ ∧
          Exhausted model history computePartial L₂ (seq ++ [i]) ∧ Grows L₁.longest L₂.longest) :
    Succeeds model history computePartial L ∨
      ∃ L', Relation.ReflTransGen (Next model computePartial history) L L' ∧ SamePlace L L' ∧
        Searching model history computePartial L' seq ∧ L'.entry = after.head? ∧
        Grows L.longest L'.longest ∧
        Tried model history computePartial L'.longest seq.toFinset L.state (callPos history i) := by
  have ha := h.at_seq
  have hfit := hm.fits hrem rfl hi hcalls
  have hnew : i ∉ seq := by simpa using hfit.new
  have hturn := ha.turn_call computePartial hm hi hnew hentry
  have hnext := next_eq_of_rem ha hrem
  rw [ha.tryCall_eq hm hi] at hturn
  -- moving on without a try
  have hskip : Next model computePartial history L
      { L with entry := L.heap.next (callPos history i) } →
      (∀ s', opStep model history L.state i = some s' →
        Settled model history computePartial L.longest (insert i seq.toFinset) s') →
      ∃ L', Relation.ReflTransGen (Next model computePartial history) L L' ∧ SamePlace L L' ∧
        Searching model history computePartial L' seq ∧ L'.entry = after.head? ∧
        Grows L.longest L'.longest ∧
        Tried model history computePartial L'.longest seq.toFinset L.state (callPos history i) := by
    intro hstep hset
    have hsame : SamePlace L { L with entry := L.heap.next (callPos history i) } :=
      ⟨rfl, rfl, rfl, rfl⟩
    refine ⟨_, .single hstep, hsame, ⟨ha.congr hsame, h.cached, h.recorded⟩, hnext,
      fun _ _ h ↦ h, ?_⟩
    rw [Tried, hm.idAt_call hi]
    exact ⟨rfl, hset⟩
  cases hop : opStep model history L.state i with
  | none =>
    rw [hop] at hturn
    exact Or.inr (hskip hturn fun s' hs' ↦ by simp [hop] at hs')
  | some s' =>
    obtain ⟨b, hb⟩ := Bitset.set_isSome (hi.trans_le ha.room)
    rw [hop, hb] at hturn
    simp only [Option.bind_some] at hturn
    have hholds : b.Holds (seq ++ [i]).toFinset := toFinset_concat seq i ▸ ha.holds.set hb
    by_cases hhit : cacheContains model L.cache (b, s') = true
    · rw [if_pos hhit] at hturn
      refine Or.inr (hskip hturn fun t ht ↦ ?_)
      obtain rfl : s' = t := by simpa [hop] using ht
      rw [← toFinset_concat]
      refine h.cached.settled hc hholds ?_ hhit
      rw [toFinset_concat, Finset.card_insert_of_notMem hfit.new, ha.card]
      exact Nat.lt_succ_self _
    · obtain ⟨heap, hlift, hundo, hat⟩ := ha.push hm hfit hop hb
      rw [if_neg hhit, hlift, Option.bind_some] at hturn
      generalize hL₁ : ({ L with
          heap := heap
          entry := heap.next history.length
          state := s'
          linearized := b
          cache := L.cache.add (b, s')
          calls := L.calls ++ [(callPos history i, L.state)] } : Loop S I O) = L₁ at hturn
      have hat₁ : At model history L₁ (seq ++ [i]) := by subst hL₁; exact hat _ rfl rfl rfl rfl
      have hsearch : Searching model history computePartial L₁ (seq ++ [i]) := by
        refine ⟨hat₁, ?_, ?_⟩
        · subst hL₁
          exact h.cached.push hholds (foldlM_concat ha.state hop)
        · subst hL₁
          exact h.recorded
      have hentry₁ : L₁.entry = (rem history (seq ++ [i]).toFinset).head? := by
        rw [← hat₁.next_head]
        subst hL₁
        rfl
      rcases hbelow L₁ hsearch hentry₁ with ⟨L₂, seq₂, hsteps, hrest⟩ | ⟨L₂, hsteps, hsame, hex, hg⟩
      · exact Or.inl ⟨L₂, seq₂, .head hturn hsteps, hrest⟩
      · obtain ⟨longest, hpop, hrec, hg', hset, hcache⟩ := hex.pop hm ha hi hnew
          (by rw [hsame.linearized, ← hL₁]; exact hb) (by rw [hsame.heap, ← hL₁]; exact hundo)
          (by rw [hsame.calls, ← hL₁])
        refine Or.inr ⟨_, .head hturn (hsteps.tail hpop), ⟨rfl, rfl, rfl, rfl⟩,
          ⟨ha.congr ⟨rfl, rfl, rfl, rfl⟩, hcache, hrec⟩, hnext, fun j k hr ↦ ?_, ?_⟩
        · refine hg' j k (hg j k ?_)
          rw [← hL₁]
          exact hr
        · rw [Tried, hm.idAt_call hi]
          refine ⟨rfl, fun t ht ↦ ?_⟩
          obtain rfl : s' = t := by simpa [hop] using ht
          have hstate : L₂.state = s' := by rw [hsame.state, ← hL₁]
          rwa [hstate] at hset

/-- **The search below a node.**  From the node `seq`, with the calls `before` tried and the walk at
the entries `after`, the loop finds an order of all operations, or it comes to a return with the
variables as they were and everything below the node settled. -/
theorem explore (hm : Matched history) (hc : model.Congruent) (k : ℕ) :
    ∀ {seq : List ℕ} {L : Loop S I O} {before after : List ℕ}, size history - seq.length = k →
      Searching model history computePartial L seq →
      rem history seq.toFinset = before ++ after → L.entry = after.head? →
      (∀ q ∈ before, Tried model history computePartial L.longest seq.toFinset L.state q) →
      Succeeds model history computePartial L ∨
        ∃ L', Relation.ReflTransGen (Next model computePartial history) L L' ∧ SamePlace L L' ∧
          Exhausted model history computePartial L' seq ∧ Grows L.longest L'.longest := by
  induction k using Nat.strong_induction_on with
  | _ k ih =>
    intro seq L before after hk h hrem hentry htried
    induction after generalizing L before with
    | nil =>
      -- the return of a call that is left would be left too, so nothing is left
      rw [List.append_nil] at hrem
      have hnil : rem history seq.toFinset = [] := by
        by_contra hne
        obtain ⟨q, hq⟩ := List.exists_mem_of_ne_nil _ hne
        obtain ⟨hlt, hqd⟩ := mem_rem.mp hq
        have hret := hm.return_mem_rem (hm.pos_cases hlt).1 hqd
        have hcall := (htried _ (hrem ▸ hret)).1
        rw [hm.idAt_return (hm.pos_cases hlt).1] at hcall
        exact (hm.call_lt _ (hm.pos_cases hlt).1).ne' hcall
      refine Or.inl ⟨L, seq, .refl, h.at_seq, ?_, h.recorded⟩
      have h1 := mt (hm.rem_ne_nil_iff h.at_seq.lt_size).mpr (not_not.mpr hnil)
      have h2 : seq.toFinset ⊆ Finset.range (size history) :=
        fun j hj ↦ Finset.mem_range.mpr (h.at_seq.lt_size j hj)
      have h3 := Finset.card_le_card h2
      rw [Finset.card_range] at h3
      rw [h.at_seq.card] at h1 h3
      omega
    | cons q after ihwalk =>
      have hq : q ∈ rem history seq.toFinset := by simp [hrem]
      obtain ⟨hlt, hqd⟩ := mem_rem.mp hq
      obtain ⟨hi, hpos⟩ := hm.pos_cases hlt
      generalize hid : idAt history q = i at hqd hi hpos
      rcases hpos with rfl | rfl
      · have hstep := try_call hm hc h hrem hi (fun p hp ↦ (htried p hp).1) hentry
          fun L₁ h₁ he₁ ↦ ih (size history - (seq ++ [i]).length) (by
            have hlen : seq.length < size history := by
              rw [← h.at_seq.card]
              exact (hm.rem_ne_nil_iff h.at_seq.lt_size).mp (List.ne_nil_of_mem hq)
            rw [List.length_append, List.length_singleton]
            omega) rfl h₁ (List.nil_append _).symm he₁ (by simp)
        rcases hstep with hs | ⟨L₁, hsteps, hsame, h₁, he₁, hg, ht₁⟩
        · exact Or.inl hs
        · have hbefore : ∀ p ∈ before ++ [callPos history i],
              Tried model history computePartial L₁.longest seq.toFinset L₁.state p := by
            rw [hsame.state]
            intro p hp
            rcases List.mem_append.mp hp with hp | hp
            · exact ⟨(htried p hp).1, fun s' hs' ↦ ((htried p hp).2 s' hs').mono hg⟩
            · obtain rfl := List.mem_singleton.mp hp
              exact ht₁
          rcases ihwalk h₁ (by simpa using hrem) he₁ hbefore with
            ⟨L₂, seq₂, hsteps₂, hrest⟩ | ⟨L₂, hsteps₂, hsame₂, hex, hg₂⟩
          · exact Or.inl ⟨L₂, seq₂, hsteps.trans hsteps₂, hrest⟩
          · exact Or.inr ⟨L₂, hsteps.trans hsteps₂, hsame.trans hsame₂, hex,
              fun j l hr ↦ hg₂ j l (hg j l hr)⟩
      · refine Or.inr ⟨L, .refl, ⟨rfl, rfl, rfl, rfl⟩, ⟨h, ⟨i, hi, by simpa using hqd, hentry⟩,
          fun j s' hfit hop ↦ ?_⟩, fun _ _ h ↦ h⟩
        have ht := (htried _ (hm.mem_before_of_fits hrem hi hfit)).2
        rw [hm.idAt_call hfit.lt] at ht
        exact ht s' hop

end DistLabs.Porcupine
