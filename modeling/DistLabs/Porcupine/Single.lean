import DistLabs.Porcupine.Explore
import DistLabs.Porcupine.KvModel

/-!
# What `checkSingle` decides

For a matched history and a model whose equality of states is a congruence, `checkSingle` ends, it
says whether there is a linearization (`checkSingle_decides`), and if it is asked for partial
results it returns for every operation the longest beginning of an order with this operation
(`checkSingle_longest`).
-/

set_option autoImplicit false

namespace DistLabs.Porcupine

variable {S I O : Type} {model : Model S I O} {history : List (Entry I O)}
  {computePartial : Bool} {L L' : Loop S I O} {ok : Bool} {longest : Longest}

/-- The loop comes to a return. -/
def Finishes (model : Model S I O) (computePartial : Bool) (history : List (Entry I O))
    (L : Loop S I O) (ok : Bool) (longest : Longest) : Prop :=
  ∃ L', Relation.ReflTransGen (Next model computePartial history) L L' ∧
    L'.turn model computePartial false history.length = some (.return ok longest)

/-- With enough fuel the loop runs to the end. -/
theorem Finishes.run (h : Finishes model computePartial history L ok longest) :
    ∃ k, ∀ fuel ≥ k, L.run model computePartial history.length fuel = some (ok, longest) := by
  obtain ⟨L', hsteps, hret⟩ := h
  induction hsteps using Relation.ReflTransGen.head_induction_on with
  | refl =>
    refine ⟨1, fun fuel hfuel ↦ ?_⟩
    obtain ⟨fuel, rfl⟩ := Nat.exists_eq_add_of_le' hfuel
    rw [Loop.run, hret]
  | head hstep _ ih =>
    obtain ⟨k, hk⟩ := ih
    refine ⟨k + 1, fun fuel hfuel ↦ ?_⟩
    obtain ⟨fuel, rfl⟩ := Nat.exists_eq_add_of_le' (Nat.le_of_add_left_le hfuel)
    rw [Loop.run, hstep]
    exact hk fuel (by omega)

/-! ## From the start to the end -/

theorem searching_start (model : Model S I O) (computePartial : Bool) (hm : Matched history) :
    Searching model history computePartial (Loop.start model history) [] := by
  obtain ⟨hchain, -, -⟩ := Loop.start_heap model history
  obtain ⟨hlin, hlong⟩ := Loop.start_size model history
  refine ⟨⟨?_, Loop.start_fields model hm, ?_, ?_, rfl, trivial, rfl⟩, fun _ e he ↦ ?_, ?_⟩
  · rwa [List.toFinset_nil, rem_empty]
  · rw [hlin]
    exact Bitset.holds_newBitset _
  · rw [hlin]
    exact Bitset.newBitset_length _
  · exact absurd he List.not_mem_nil
  · rw [hlong]
    refine ⟨List.length_replicate, fun j l hl ↦ ?_⟩
    rw [List.getElem?_replicate] at hl
    split at hl <;> simp at hl

/-- What `checkSingle` returns: an order of all operations, or what can be done without one. -/
def Verdict (model : Model S I O) (computePartial : Bool) (history : List (Entry I O)) (ok : Bool)
    (longest : Longest) : Prop :=
  ok = true ∧ (∃ seq, Linearization model history seq ∧
      longest = List.replicate (size history) (some (seq.map Int.ofNat))) ∨
    ok = false ∧ Recorded model history longest ∧
      Settled model history computePartial longest ∅ model.init

/-- **The search ends** with the right verdict. -/
theorem exists_verdict (hm : Matched history) (hc : model.Congruent) (computePartial : Bool) :
    ∃ ok longest, Finishes model computePartial history (Loop.start model history) ok longest ∧
      Verdict model computePartial history ok longest := by
  have hstart := searching_start model computePartial hm
  obtain ⟨-, -, hentry⟩ := Loop.start_heap model history
  rcases explore hm hc _ rfl hstart (by rw [List.toFinset_nil, rem_empty, List.nil_append]) hentry
    (by simp) with ⟨L', seq, hsteps, hat, hlen, hrec⟩ | ⟨L', hsteps, hsame, hex, -⟩
  · have hnil : L'.heap.next history.length = none := by
      rw [hat.next_head, List.head?_eq_none_iff]
      by_contra hne
      have := (hm.rem_ne_nil_iff hat.lt_size).mp hne
      rw [hat.card] at this
      omega
    refine ⟨true, _, ⟨L', hsteps, by rw [Loop.turn, if_pos hnil]⟩, Or.inl ⟨rfl, seq, ?_, ?_⟩⟩
    · exact (linearization_iff hm).mpr ⟨hat.runs, hlen⟩
    · rw [hat.seq_eq hm, List.map_const', hrec.length]
  · obtain ⟨p, hp, -, hp'⟩ := hex.entry
    have hcalls : L'.calls = [] := by
      have := hex.at_seq.calls
      simpa using this
    have hne := hex.at_seq.next_head_ne (hex.at_seq.card ▸ hex.lt_size hm) hm
    refine ⟨false, L'.longest, ⟨L', hsteps, ?_⟩, Or.inr ⟨rfl, hex.recorded, ?_⟩⟩
    · rw [Loop.turn, if_neg hne, hp']
      simp [hex.at_seq.fields.return_none p hp, hcalls]
    · have hset := hex.settled hm (fun _ _ h ↦ h) (by simp)
      rwa [hsame.state] at hset

theorem Verdict.iff (hm : Matched history) (h : Verdict model computePartial history ok longest) :
    ok = true ↔ ∃ seq, Linearization model history seq := by
  rcases h with ⟨rfl, seq, hlin, -⟩ | ⟨rfl, -, hset⟩
  · exact iff_of_true rfl ⟨seq, hlin⟩
  · refine iff_of_false (by simp) ?_
    rintro ⟨seq, hlin⟩
    obtain ⟨hpart, hlen⟩ := (linearization_iff hm).mp hlin
    have := (hset seq hpart).1
    simp only [Finset.card_empty] at this
    omega

/-- The longest beginning of an order with operation `j`. -/
structure IsLongest (model : Model S I O) (history : List (Entry I O)) (j : ℕ) (seq : List ℕ) :
    Prop where
  /-- It is the beginning of an order. -/
  runs : PartialLinearization model history seq
  /-- It has the operation. -/
  mem : j ∈ seq
  /-- No other one is longer. -/
  max : ∀ seq', PartialLinearization model history seq' → j ∈ seq' → seq'.length ≤ seq.length

theorem PartialLinearization.length_le {seq : List ℕ} (h : PartialLinearization model history seq) :
    seq.length ≤ size history := by
  obtain ⟨hnd, hlt⟩ := Runs.nodup h
  rw [← List.length_range (n := size history)]
  exact (List.subperm_of_subset hnd fun i hi ↦ List.mem_range.mpr (hlt i hi).1).length_le

theorem Verdict.longest_cases (hm : Matched history) (h : Verdict model true history ok longest)
    {j : ℕ} (hj : j < size history) :
    longest[j]? = some none ∧ (∀ seq, PartialLinearization model history seq → j ∉ seq) ∨
      ∃ seq, longest[j]? = some (some (seq.map Int.ofNat)) ∧ IsLongest model history j seq := by
  rcases h with ⟨-, seq, hlin, rfl⟩ | ⟨-, hrec, hset⟩
  · obtain ⟨hpart, hlen⟩ := (linearization_iff hm).mp hlin
    refine Or.inr ⟨seq, by simp [hj], hpart, ?_, fun seq' h' _ ↦ ?_⟩
    · exact hlin.perm.mem_iff.mpr (List.mem_range.mpr hj)
    · rw [hlen]
      exact h'.length_le
  · -- what is recorded is at least as long as any order, and is itself one
    have hreach : ∀ seq, PartialLinearization model history seq → j ∈ seq →
        Reached longest j seq.length := by
      intro seq hseq hmem
      have := (hset seq hseq).2 rfl j (by simpa using hmem)
      rwa [Finset.card_empty, Nat.zero_add] at this
    have hlt : j < longest.length := hrec.length ▸ hj
    have hget := List.getElem?_eq_getElem hlt
    cases hl : longest[j] with
    | none =>
      refine Or.inl ⟨by rw [hget, hl], fun seq hseq hmem ↦ ?_⟩
      obtain ⟨l, hl', -⟩ := hreach seq hseq hmem
      simp [hget, hl] at hl'
    | some l =>
      rw [hl] at hget
      obtain ⟨seq, rfl, hpart, hmem⟩ := hrec.sound j l hget
      refine Or.inr ⟨seq, hget, hpart, hmem, fun seq' h' hmem' ↦ ?_⟩
      obtain ⟨l, hl', hle⟩ := hreach seq' h' hmem'
      rw [hget, Option.some_inj, Option.some_inj] at hl'
      rwa [← hl', List.length_map] at hle

/-! ## The verdict -/

/-- **`checkSingle` decides linearizability**: on every matched history it ends, and it returns true
exactly if there is a linearization. -/
theorem checkSingle_decides (hm : Matched history) (hc : model.Congruent) (computePartial : Bool) :
    ∃ k ok longest,
      (∀ fuel ≥ k, checkSingle model history computePartial fuel = some (ok, longest)) ∧
        (ok = true ↔ ∃ seq, Linearization model history seq) := by
  obtain ⟨ok, longest, hfin, hver⟩ := exists_verdict hm hc computePartial
  obtain ⟨k, hk⟩ := hfin.run
  exact ⟨k, ok, longest, hk, hver.iff hm⟩

/-- **`checkSingle` finds the longest partial orders**: asked for them, it returns for every
operation a longest beginning of an order that has it, and nothing only if there is none. -/
theorem checkSingle_longest (hm : Matched history) (hc : model.Congruent) :
    ∃ k ok longest, (∀ fuel ≥ k, checkSingle model history true fuel = some (ok, longest)) ∧
      ∀ j < size history,
        longest[j]? = some none ∧ (∀ seq, PartialLinearization model history seq → j ∉ seq) ∨
        ∃ seq, longest[j]? = some (some (seq.map Int.ofNat)) ∧ IsLongest model history j seq := by
  obtain ⟨ok, longest, hfin, hver⟩ := exists_verdict hm hc true
  obtain ⟨k, hk⟩ := hfin.run
  exact ⟨k, ok, longest, hk, fun j hj ↦ hver.longest_cases hm hj⟩

/-! ## The model of the store -/

theorem kvModel_congruent : kvModel.Congruent where
  verdict h input output := by rw [eq_of_beq (α := Bytes) h]
  next h input output _ := by
    rw [eq_of_beq (α := Bytes) h]
    exact beq_self_eq_true (α := Bytes) _

/-- A get that overlaps a put and does not see it. -/
def overlap : List (Entry KvInput KvOutput) :=
  [⟨.call ⟨1, [107], [97]⟩, 0, 0, 0⟩, ⟨.call ⟨0, [107], []⟩, 1, 1, 1⟩,
    ⟨.return ⟨[]⟩, 1, 2, 1⟩, ⟨.return ⟨[]⟩, 0, 3, 0⟩]

theorem checkSingle_decides_overlap : Matched overlap ∧ ∃ k ok longest,
    (∀ fuel ≥ k, checkSingle kvModel overlap false fuel = some (ok, longest)) ∧
      (ok = true ↔ ∃ seq, Linearization kvModel overlap seq) :=
  ⟨by decide, checkSingle_decides (by decide) kvModel_congruent false⟩

/-- A get that comes after a put and does not see it. -/
def stale : List (Entry KvInput KvOutput) :=
  [⟨.call ⟨1, [107], [97]⟩, 0, 0, 0⟩, ⟨.return ⟨[]⟩, 0, 1, 0⟩,
    ⟨.call ⟨0, [107], []⟩, 1, 2, 1⟩, ⟨.return ⟨[]⟩, 1, 3, 1⟩]

theorem checkSingle_longest_stale : Matched stale ∧ ∃ k ok longest,
    (∀ fuel ≥ k, checkSingle kvModel stale true fuel = some (ok, longest)) ∧
      ∀ j < size stale,
        longest[j]? = some none ∧ (∀ seq, PartialLinearization kvModel stale seq → j ∉ seq) ∨
        ∃ seq, longest[j]? = some (some (seq.map Int.ofNat)) ∧ IsLongest kvModel stale j seq :=
  ⟨by decide, checkSingle_longest (by decide) kvModel_congruent⟩

end DistLabs.Porcupine
