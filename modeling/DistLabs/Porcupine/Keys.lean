import DistLabs.Lib.Grouping
import DistLabs.Lib.Intervals
import DistLabs.Porcupine.Operations
import DistLabs.Porcupine.Parallel

/-!
# Checking a map key by key

`Partition` of `KvModel` and `checkOperations`.  A history of a key/value store is cut into one part
for each key, and the parts are checked one by one against the model of a single key.

This is right because the operations on different keys have nothing to do with each other
(`linearizable_keyed_iff`): the map accepts an order exactly if every key accepts its part of it,
and orders of the parts can always be merged.
-/

set_option autoImplicit false

namespace DistLabs.Porcupine

variable {S I O K : Type} [DecidableEq K]

/-! ## Objects with keys -/

/-- One object for each key. -/
def keyedStep (key : I → K) (step : S → I → O → Bool × S) (st : K → S) (input : I) (output : O) :
    Bool × (K → S) :=
  let (ok, s) := step (st (key input)) input output
  (ok, Function.update st (key input) s)

variable {key : I → K} {step : S → I → O → Bool × S}

/-- **Every key sees only its own operations.** -/
theorem keyed_run {order : List (Operation I O)} {st st' : K → S} :
    order.foldlM (runOp (keyedStep key step)) st = some st' ↔
      ∀ k, (order.filter fun op ↦ key op.input = k).foldlM (runOp step) (st k) = some (st' k) := by
  induction order generalizing st with
  | nil => simp [funext_iff]
  | cons op rest ih =>
    have hrun : runOp (keyedStep key step) st op =
        (runOp step (st (key op.input)) op).map (Function.update st (key op.input)) := by
      rcases hstep : step (st (key op.input)) op.input op.output with ⟨_ | _, s⟩ <;>
        simp [runOp, keyedStep, hstep]
    rw [List.foldlM_cons, hrun]
    cases hs : runOp step (st (key op.input)) op with
    | none =>
      refine iff_of_false (by simp) fun h ↦ ?_
      have := h (key op.input)
      simp [hs] at this
    | some s =>
      rw [Option.map_some, Option.bind_eq_bind, Option.bind_some, ih]
      refine forall_congr' fun k ↦ ?_
      by_cases hk : key op.input = k
      · subst hk
        simp [hs]
      · simp [hk, Function.update_of_ne (Ne.symm hk)]

theorem keyed_isSome {order : List (Operation I O)} {st : K → S} :
    (order.foldlM (runOp (keyedStep key step)) st).isSome ↔
      ∀ k, ((order.filter fun op ↦ key op.input = k).foldlM (runOp step) (st k)).isSome := by
  simp only [Option.isSome_iff_exists, keyed_run]
  constructor
  · rintro ⟨st', h⟩ k
    exact ⟨_, h k⟩
  · intro h
    choose st' h using h
    exact ⟨st', h⟩

/-- **Linearizability is local**: a history of a map is linearizable exactly if its part for every
key is. -/
theorem linearizable_keyed_iff {init : S} {ops : List (Operation I O)} {ks : List K}
    (hnd : ks.Nodup) (hks : ∀ op ∈ ops, key op.input ∈ ks)
    (hint : ∀ op ∈ ops, op.call ≤ op.ret) :
    Linearizable (fun _ ↦ init) (keyedStep key step) ops ↔
      ∀ k ∈ ks, Linearizable init step (ops.filter fun op ↦ key op.input = k) := by
  constructor
  · rintro ⟨order, hperm, hlegal, hrt⟩ k -
    exact ⟨_, hperm.filter _, keyed_isSome.mp hlegal k, hrt.filter _⟩
  · intro h
    -- an order for every key
    have hall : ∀ k, ∃ order : List (Operation I O), k ∈ ks →
        order.Perm (ops.filter fun op ↦ key op.input = k) ∧
        (order.foldlM (runOp step) init).isSome ∧
        order.Pairwise fun a b ↦ ¬ b.ret < a.call := fun k ↦ by
      by_cases hk : k ∈ ks
      · obtain ⟨order, horder⟩ := h k hk
        exact ⟨order, fun _ ↦ horder⟩
      · exact ⟨[], fun hk' ↦ absurd hk' hk⟩
    choose part hpart using hall
    have hmem : ∀ k ∈ ks, ∀ op ∈ part k, op ∈ ops ∧ key op.input = k := fun k hk op hop ↦ by
      simpa using List.mem_filter.mp ((hpart k hk).1.mem_iff.mp hop)
    obtain ⟨order, hperm, hrt, hfilter⟩ := Intervals.exists_merge
      (fun op : Operation I O ↦ key op.input) hnd (fun k hk op hop ↦ (hmem k hk op hop).2)
      (fun k hk op hop ↦ hint op (hmem k hk op hop).1) fun k hk ↦ (hpart k hk).2.2
    have hops : order.Perm ops := by
      refine hperm.trans (.trans ?_ (Grouping.perm_flatMap_filter hnd hks))
      exact List.Perm.flatMap_left ks fun k hk ↦ (hpart k hk).1
    refine ⟨order, hops, keyed_isSome.mpr fun k ↦ ?_, hrt⟩
    by_cases hk : k ∈ ks
    · rw [hfilter k hk]
      exact (hpart k hk).2.1
    · rw [List.filter_eq_nil_iff.mpr fun op hop ↦ ?_]
      · rfl
      · rw [decide_eq_true_iff]
        rintro rfl
        exact hk (hks op (hops.mem_iff.mp hop))

/-! ## The store -/

/-- `Partition` of `KvModel`. -/
def partition (history : List (Operation KvInput KvOutput)) :
    List (List (Operation KvInput KvOutput)) :=
  let m := Grouping.collect (fun v : Operation KvInput KvOutput ↦ v.input.key) id history
  let keys := m.keys.insertionSort (· ≤ ·)
  keys.map fun k ↦ (m.lookup k).getD []

theorem partition_eq (history : List (Operation KvInput KvOutput)) :
    ∃ ks : List Bytes, ks.Nodup ∧ (∀ op ∈ history, op.input.key ∈ ks) ∧
      partition history = ks.map fun k ↦ history.filter fun op ↦ op.input.key = k := by
  have hg := Grouping.isGrouping_collect
    (fun v : Operation KvInput KvOutput ↦ v.input.key) id history
  have hperm : ∀ ks : List Bytes, (ks.insertionSort (· ≤ ·)).Perm ks :=
    fun ks ↦ List.perm_insertionSort ..
  have hmem := hg.mem_iff
  rw [Grouping.map_fst_pairs] at hmem
  refine ⟨_, (hperm _).nodup_iff.mpr (Grouping.map_fst_pairs _ ▸ hg.nodup), fun op hop ↦ ?_, ?_⟩
  · exact (hperm _).mem_iff.mpr ((hmem _).mpr (List.mem_map_of_mem hop))
  · refine List.map_congr_left fun k hk ↦ ?_
    rw [Grouping.lookup_collect, if_pos ((hmem k).mp ((hperm _).mem_iff.mp hk)), Option.getD_some,
      Grouping.valuesOf, List.map_id]

/-- The history is one of a map from keys to values, all empty at first. -/
def MapLinearizable (ops : List (Operation KvInput KvOutput)) : Prop :=
  Linearizable (fun _ ↦ kvModel.init) (keyedStep KvInput.key kvModel.step) ops

/-- The arguments that `checkOperations` calls `checkParallel` with, for `KvModel`. -/
def checkOperations (s : TimeSort KvInput KvOutput) (history : List (Operation KvInput KvOutput))
    (verbose timeout : Bool) : Job Bytes KvInput KvOutput where
  model := kvModel
  history := (partition history).map (makeEntries s)
  computeInfo := verbose
  timeout := timeout

section

variable (s : TimeSort KvInput KvOutput) {ops : List (Operation KvInput KvOutput)}
  (verbose timeout : Bool)

theorem checkOperations_matched (hint : ∀ op ∈ ops, op.call ≤ op.ret) :
    ∀ h ∈ (checkOperations s ops verbose timeout).history, Matched h := by
  obtain ⟨ks, -, -, hpart⟩ := partition_eq ops
  intro h hh
  simp only [checkOperations, hpart, List.map_map, List.mem_map] at hh
  obtain ⟨k, -, rfl⟩ := hh
  exact matched_makeEntries s fun op hop ↦ hint op (List.mem_filter.mp hop).1

/-- **The parts are right**: a history of the map is linearizable exactly if every part has a
linearization. -/
theorem mapLinearizable_iff (hint : ∀ op ∈ ops, op.call ≤ op.ret) :
    MapLinearizable ops ↔ ∀ h ∈ (checkOperations s ops verbose timeout).history,
      ∃ seq, Linearization kvModel h seq := by
  obtain ⟨ks, hnd, hks, hpart⟩ := partition_eq ops
  rw [MapLinearizable, linearizable_keyed_iff hnd hks hint]
  simp only [checkOperations, hpart, List.map_map, List.mem_map, Function.comp_apply,
    forall_exists_index, and_imp, forall_apply_eq_imp_iff₂, exists_linearization_iff]

/-- There is something to check if there are operations. -/
theorem checkOperations_history_ne_nil :
    (checkOperations s ops verbose timeout).history ≠ [] ↔ ops ≠ [] := by
  constructor
  · rintro hne rfl
    exact hne rfl
  · intro hne
    obtain ⟨op, hop⟩ := List.exists_mem_of_ne_nil ops hne
    obtain ⟨ks, -, hks, hpart⟩ := partition_eq ops
    have hk : ks ≠ [] := List.ne_nil_of_mem (hks op hop)
    simpa [checkOperations, hpart] using hk

end

variable {s : TimeSort KvInput KvOutput} {ops : List (Operation KvInput KvOutput)}
  {verbose timeout : Bool}

section

variable (hint : ∀ op ∈ ops, op.call ≤ op.ret) {p : Parallel Bytes KvInput KvOutput}
  (hr : (Parallel.machine (checkOperations s ops verbose timeout)).Reach (fun _ _ _ ↦ True) p)
include hint hr

theorem mapLinearizable_of_ok (hret : p.main = .returned .ok) : MapLinearizable ops :=
  (mapLinearizable_iff s verbose timeout hint).mpr
    (exists_linearization_of_ok (checkOperations_matched s verbose timeout hint) kvModel_congruent
      hr hret)

theorem not_mapLinearizable_of_illegal (hret : p.main = .returned .illegal) :
    ¬ MapLinearizable ops := by
  obtain ⟨h, hh, hnot⟩ := exists_not_linearization_of_illegal
    (checkOperations_matched s verbose timeout hint) kvModel_congruent hr hret
  exact fun hlin ↦ hnot ((mapLinearizable_iff s verbose timeout hint).mp hlin h hh)

theorem timeout_of_checkOperations_unknown (hret : p.main = .returned .unknown) : timeout = true :=
  timeout_of_unknown (checkOperations_matched s verbose timeout hint) kvModel_congruent hr hret

/-- A history that is linearizable passes, if there is time enough. -/
theorem ok_of_mapLinearizable (ht : timeout = false) (hlin : MapLinearizable ops)
    {r : CheckResult} (hret : p.main = .returned r) : r = .ok := by
  cases r with
  | ok => rfl
  | illegal => exact absurd hlin (not_mapLinearizable_of_illegal hint hr hret)
  | unknown => simp [timeout_of_checkOperations_unknown hint hr hret] at ht

/-- Where nothing can happen any more, the result is there, except if there are no operations and no
timeout. -/
theorem checkOperations_returned_iff
    (hstuck : ∀ a, p.step (checkOperations s ops verbose timeout) a = none) :
    (∃ r, p.main = .returned r) ↔ ops ≠ [] ∨ timeout = true :=
  (returned_iff_of_stuck (checkOperations_matched s verbose timeout hint) kvModel_congruent hr
    hstuck).trans (or_congr_left (checkOperations_history_ne_nil s verbose timeout))

end

/-- **`checkOperations` checks the store**, whatever the order of the steps of its goroutines and of
entries with the same time.  There is a bound on the number of steps.  If it returns Ok the history
of the map is linearizable, and if it returns Illegal it is not.  When nothing can happen any more
it has returned, except if there are no operations and no timeout; and without a timeout it has then
returned Ok or Illegal, as it should. -/
theorem checkOperations_decides (hint : ∀ op ∈ ops, op.call ≤ op.ret) :
    (∃ bound, ∀ as p, (Parallel.machine (checkOperations s ops verbose timeout)).exec
      (fun _ _ _ ↦ True) (.start (checkOperations s ops verbose timeout)) as = some p →
        as.length ≤ bound) ∧
    ∀ p, (Parallel.machine (checkOperations s ops verbose timeout)).Reach (fun _ _ _ ↦ True) p →
      (p.main = .returned .ok → MapLinearizable ops) ∧
      (p.main = .returned .illegal → ¬ MapLinearizable ops) ∧
      ((∀ a, p.step (checkOperations s ops verbose timeout) a = none) →
        ((∃ r, p.main = .returned r) ↔ ops ≠ [] ∨ timeout = true) ∧
        (ops ≠ [] → timeout = false → p.main = .returned .ok ∧ MapLinearizable ops ∨
          p.main = .returned .illegal ∧ ¬ MapLinearizable ops)) := by
  refine ⟨Job.exists_steps_le (checkOperations_matched s verbose timeout hint) kvModel_congruent,
    fun p hr ↦ ⟨mapLinearizable_of_ok hint hr, not_mapLinearizable_of_illegal hint hr,
      fun hstuck ↦ ?_⟩⟩
  have hiff := checkOperations_returned_iff hint hr hstuck
  refine ⟨hiff, fun hne ht ↦ ?_⟩
  obtain ⟨r, hret⟩ := hiff.mpr (Or.inl hne)
  cases r with
  | ok => exact Or.inl ⟨hret, mapLinearizable_of_ok hint hr hret⟩
  | illegal => exact Or.inr ⟨hret, not_mapLinearizable_of_illegal hint hr hret⟩
  | unknown => simp [timeout_of_checkOperations_unknown hint hr hret] at ht

/-! ## A history -/

/-- An order of entries by time, in which calls go first. -/
def Entry.rank (e : Entry KvInput KvOutput) : Int := 2 * e.time + if e.isCall then 0 else 1

theorem less_eq_rank (a b : Entry KvInput KvOutput) : less a b = decide (a.rank < b.rank) := by
  rw [less, Entry.rank, Entry.rank]
  rw [Bool.eq_iff_iff]
  cases a.isCall <;> cases b.isCall <;> by_cases h : a.time = b.time <;> simp [h] <;> omega

/-- Sort by insertion. -/
def TimeSort.insertion : TimeSort KvInput KvOutput where
  sort es := es.insertionSort fun a b ↦ a.rank ≤ b.rank
  perm es := List.perm_insertionSort ..
  sorted es := by
    have : Std.Total fun a b : Entry KvInput KvOutput ↦ a.rank ≤ b.rank :=
      ⟨fun a b ↦ le_total a.rank b.rank⟩
    have : IsTrans (Entry KvInput KvOutput) fun a b ↦ a.rank ≤ b.rank :=
      ⟨fun a b c ↦ le_trans⟩
    refine (List.pairwise_insertionSort _ es).imp fun {a b} h ↦ ?_
    rw [less_eq_rank, decide_eq_false_iff_not, not_lt]
    exact h

/-- A put, and after it a get that does not see it, both of the key `k`. -/
def staleOps : List (Operation KvInput KvOutput) :=
  [⟨1, ⟨0, [107], []⟩, 2, ⟨[]⟩, 3⟩, ⟨0, ⟨1, [107], [97]⟩, 0, ⟨[]⟩, 1⟩]

theorem checkOperations_decides_stale :
    ∃ p, (Parallel.machine (checkOperations .insertion staleOps false false)).Reach
        (fun _ _ _ ↦ True) p ∧
      (∀ a, p.step (checkOperations .insertion staleOps false false) a = none) ∧
      p.main = .returned .illegal ∧ ¬ MapLinearizable staleOps := by
  obtain ⟨p, hr, hret, hsent⟩ := Machine.exists_reach_of_exec
    (M := Parallel.machine (checkOperations .insertion staleOps false false))
    (P := fun _ _ _ ↦ True)
    (Q := fun p ↦ p.main = .returned .illegal ∧ p.routines.all Routine.isSent = true) staleRun
    (by decide)
  have hstuck := Parallel.stuck_of_returned
    (J := checkOperations .insertion staleOps false false) hret hsent
  refine ⟨p, hr, hstuck, hret, ?_⟩
  rcases ((checkOperations_decides (by decide)).2 p hr).2.2 hstuck with ⟨-, hdecides⟩
  rcases hdecides (by decide) rfl with ⟨hok, -⟩ | ⟨-, hnot⟩
  · simp [hret] at hok
  · exact hnot

end DistLabs.Porcupine
