import DistLabs.KV.Clients

/-!
# Linearizability of the key-value service

Where each call takes effect.  The first copy of a `Put` or an `Append` in the log does, at its
index; later copies are skipped.  A `Get` does not read at its place in the log but when its handler
gets the lock again, which may be several indexes later, and it need not have been signalled for the
copy it has started itself; it takes effect behind the last command of the prefix that was read.
`Points` fixes such a prefix for every call that has returned, and slot `i` of the order is the
write of index `i + 1`, followed by the `Get`s that have read there.
-/

set_option autoImplicit false

namespace DistLabs.KV

/-- Is the call a `Get`? -/
def Call.isGet : Call → Bool
  | .get _ => true
  | .put _ _ | .append _ _ => false

theorem Call.next_of_isGet {call : Call} (h : call.isGet) (s : Bytes → Bytes) :
    kvObject.next s call = s := by
  cases call with
  | get => rfl
  | put | append => simp [isGet] at h

theorem Call.result_of_not_isGet {call : Call} (h : ¬ call.isGet) (s : Bytes → Bytes) :
    kvObject.result s call = [] := by
  cases call with
  | get => simp [isGet] at h
  | put | append => rfl

/-! ## Slots -/

/-- The write that takes effect at index `i + 1`. -/
def writeAt (log : List Op) (i : Nat) : List ((Int × Int) × Call × Bytes) :=
  match log[i]? with
  | some op =>
    if op.call.isGet ∨ op.request ∈ requests log i then [] else [(op.request, op.call, [])]
  | none => []

/-- For each call that has returned, what it was, and the prefix of the log it was answered from. -/
structure Points (p : Past) where
  /-- The call. -/
  call : Nat × (Int × Int) × Bytes → Call
  /-- The length of the prefix. -/
  index : Nat × (Int × Int) × Bytes → Nat
  /-- The call was made, -/
  made : ∀ x ∈ p.responses, ∃ t, (t, .invoke x.2.1 (call x)) ∈ p.hist
  /-- the prefix had been applied when it returned, -/
  le : ∀ x ∈ p.responses, index x ≤ x.1
  /-- the request is in there, -/
  mem : ∀ x ∈ p.responses, x.2.1 ∈ requests p.log (index x)
  /-- and the result is what the prefix says. -/
  result : ∀ x ∈ p.responses,
    x.2.2 = kvObject.result (replay (p.log.take (index x))).value (call x)

theorem PastInv.nonempty_points {p : Past} (h : PastInv p) : Nonempty (Points p) := by
  have hall : ∀ x ∈ p.responses, ∃ call k, (∃ t, (t, .invoke x.2.1 call) ∈ p.hist) ∧ k ≤ x.1 ∧
      x.2.1 ∈ requests p.log k ∧
        x.2.2 = kvObject.result (replay (p.log.take k)).value call := by
    intro x hx
    obtain ⟨call, hmade, k, hk⟩ := h.response x.1 x.2.1 x.2.2 (Past.mem_responses.mp hx)
    exact ⟨call, k, hmade, hk⟩
  have : Nonempty Call := ⟨.get []⟩
  choose! call index hpoint using hall
  exact ⟨⟨call, index, fun x hx ↦ (hpoint x hx).1, fun x hx ↦ (hpoint x hx).2.1,
    fun x hx ↦ (hpoint x hx).2.2.1, fun x hx ↦ (hpoint x hx).2.2.2⟩⟩

namespace Points

variable {p : Past}

/-- The `Get`s that take effect between index `i + 1` and the next. -/
def readsAt (P : Points p) (i : Nat) : List ((Int × Int) × Call × Bytes) :=
  (p.responses.filter fun x ↦ (P.call x).isGet ∧ P.index x = i + 1).map
    fun x ↦ (x.2.1, P.call x, x.2.2)

/-- What takes effect at index `i + 1`. -/
def slot (P : Points p) (i : Nat) : List ((Int × Int) × Call × Bytes) :=
  writeAt p.log i ++ P.readsAt i

/-- **The order of the calls.** -/
def order (P : Points p) : List ((Int × Int) × Call × Bytes) :=
  (List.range p.log.length).flatMap P.slot

end Points

/-! ## What is in a slot -/

section

variable {p : Past} {P : Points p} {i : Nat} {x : (Int × Int) × Call × Bytes}

theorem mem_writeAt {log : List Op} : x ∈ writeAt log i ↔ ∃ op, log[i]? = some op ∧
    ¬ op.call.isGet ∧ op.request ∉ requests log i ∧ x = (op.request, op.call, []) := by
  rw [writeAt]
  cases log[i]? with
  | none => simp
  | some op =>
    dsimp only
    split
    · next h =>
      simp only [List.not_mem_nil, Option.some.injEq, exists_eq_left', false_iff]
      tauto
    · next h =>
      simp only [List.mem_singleton, Option.some.injEq, exists_eq_left']
      tauto

theorem Points.mem_readsAt : x ∈ P.readsAt i ↔ ∃ y ∈ p.responses,
    (P.call y).isGet ∧ P.index y = i + 1 ∧ x = (y.2.1, P.call y, y.2.2) := by
  simp only [readsAt, List.mem_map, List.mem_filter, decide_eq_true_eq, and_assoc, @eq_comm _ _ x]

theorem not_isGet_of_mem_writeAt {log : List Op} (h : x ∈ writeAt log i) : ¬ x.2.1.isGet := by
  obtain ⟨op, -, hnot, -, rfl⟩ := mem_writeAt.mp h
  exact hnot

theorem Points.isGet_of_mem_readsAt (h : x ∈ P.readsAt i) : x.2.1.isGet := by
  obtain ⟨y, -, hget, -, rfl⟩ := mem_readsAt.mp h
  exact hget

/-- Among the first `k` commands there is a first that has this request. -/
theorem exists_first {log : List Op} {req : Int × Int} {k : Nat} (h : req ∈ requests log k) :
    ∃ j < k, ∃ op, log[j]? = some op ∧ op.request = req ∧ req ∉ requests log j := by
  induction k with
  | zero => simp [requests] at h
  | succ k ih =>
    by_cases hk : req ∈ requests log k
    · obtain ⟨j, hj, hop⟩ := ih hk
      exact ⟨j, by omega, hop⟩
    · obtain ⟨op, hmem, hreq⟩ := List.mem_map.mp h
      rw [List.take_add_one, List.mem_append] at hmem
      rcases hmem with hold | hlast
      · exact absurd (List.mem_map.mpr ⟨op, hold, hreq⟩) hk
      · exact ⟨k, by omega, op, by simpa using hlast, hreq, hk⟩

theorem mem_requests_of_lt {log : List Op} {op : Op} {k : Nat} (h : log[i]? = some op)
    (hik : i < k) : op.request ∈ requests log k := by
  refine requests_mono (Nat.succ_le_of_lt hik) (List.mem_map.mpr ⟨op, ?_, rfl⟩)
  rw [take_succ_of_getElem? h]
  simp

namespace PastInv

variable (h : PastInv p)
include h

/-- A call that has a place in the order was made, when at most `i` commands had been applied, -/
theorem made_of_mem_slot (hx : x ∈ P.slot i) : ∃ t ≤ i, (t, .invoke x.1 x.2.1) ∈ p.hist := by
  rcases List.mem_append.mp hx with hw | hr
  · obtain ⟨op, hop, -, -, rfl⟩ := mem_writeAt.mp hw
    exact h.entry i op hop
  · obtain ⟨y, hy, -, hi, rfl⟩ := Points.mem_readsAt.mp hr
    -- its first copy in the log lies in the prefix that was read
    obtain ⟨j, hj, op, hop, hreq, -⟩ := exists_first (P.mem y hy)
    obtain ⟨t, ht, hinv⟩ := h.entry j op hop
    obtain ⟨t', hmade⟩ := P.made y hy
    rw [hreq] at hinv
    obtain ⟨rfl, hcall⟩ := h.unique _ _ _ _ _ hinv hmade
    exact ⟨t, by omega, hcall ▸ hinv⟩

/-- and if it has returned, more had been applied by then. -/
theorem lt_of_mem_slot (hx : x ∈ P.slot i) {t : Nat} {v : Bytes}
    (hv : (t, .respond x.1 v) ∈ p.hist) : i < t := by
  have hres := Past.mem_responses.mpr hv
  rcases List.mem_append.mp hx with hw | hr
  · obtain ⟨op, hop, -, hfirst, rfl⟩ := mem_writeAt.mp hw
    -- a first copy is in no prefix of length `i`
    by_contra hlt
    refine hfirst (requests_mono ?_ (P.mem _ hres))
    have := P.le _ hres
    omega
  · obtain ⟨y, hy, -, hi, rfl⟩ := Points.mem_readsAt.mp hr
    have hy' : (t, y.2.1, v) = y := List.inj_on_of_nodup_map h.once hres hy rfl
    have hle : P.index y ≤ t := hy' ▸ P.le _ hres
    omega

/-- What has a place is one call, -/
theorem call_unique {y : (Int × Int) × Call × Bytes} {j : Nat} (hx : x ∈ P.slot i)
    (hy : y ∈ P.slot j) (heq : x.1 = y.1) : x.2.1 = y.2.1 := by
  obtain ⟨t, -, hinv⟩ := h.made_of_mem_slot hx
  obtain ⟨t', -, hinv'⟩ := h.made_of_mem_slot hy
  rw [heq] at hinv
  exact (h.unique _ _ _ _ _ hinv hinv').2

/-- and it has one place. -/
theorem slot_unique {y : (Int × Int) × Call × Bytes} {j : Nat} (hx : x ∈ P.slot i)
    (hy : y ∈ P.slot j) (heq : x.1 = y.1) : i = j := by
  have hcall := h.call_unique hx hy heq
  rcases List.mem_append.mp hx with hw | hr <;> rcases List.mem_append.mp hy with hw' | hr'
  · obtain ⟨op, hop, -, hfirst, rfl⟩ := mem_writeAt.mp hw
    obtain ⟨op', hop', -, hfirst', rfl⟩ := mem_writeAt.mp hw'
    change op.request = op'.request at heq
    rcases lt_trichotomy i j with hlt | heq' | hgt
    · exact absurd (heq ▸ mem_requests_of_lt hop hlt) hfirst'
    · exact heq'
    · exact absurd (heq ▸ mem_requests_of_lt hop' hgt) hfirst
  · exact absurd (hcall ▸ Points.isGet_of_mem_readsAt hr') (not_isGet_of_mem_writeAt hw)
  · exact absurd (hcall ▸ Points.isGet_of_mem_readsAt hr) (not_isGet_of_mem_writeAt hw')
  · obtain ⟨z, hz, -, hi, rfl⟩ := Points.mem_readsAt.mp hr
    obtain ⟨z', hz', -, hj, rfl⟩ := Points.mem_readsAt.mp hr'
    have hzz : z = z' := List.inj_on_of_nodup_map h.once hz hz' heq
    rw [hzz] at hi
    omega

/-! ## The order explains the history -/

theorem nodup_slot (P : Points p) (i : Nat) : ((P.slot i).map Prod.fst).Nodup := by
  rw [Points.slot, List.map_append, List.nodup_append]
  refine ⟨?_, ?_, fun a ha b hb hab ↦ ?_⟩
  · rw [writeAt]
    split
    · split <;> simp
    · simp
  · rw [Points.readsAt, List.map_map]
    exact h.once.sublist (List.filter_sublist.map _)
  · obtain ⟨x, hx, rfl⟩ := List.mem_map.mp ha
    obtain ⟨y, hy, rfl⟩ := List.mem_map.mp hb
    have hcall := h.call_unique (P := P) (List.mem_append_left _ hx) (List.mem_append_right _ hy)
      hab
    exact not_isGet_of_mem_writeAt hx (hcall ▸ Points.isGet_of_mem_readsAt hy)

theorem nodup_order (P : Points p) : (P.order.map Prod.fst).Nodup := by
  rw [Points.order, List.map_flatMap, List.nodup_flatMap]
  refine ⟨fun i _ ↦ h.nodup_slot P i, List.pairwise_lt_range.imp fun {i j} hij ↦ ?_⟩
  refine List.disjoint_left.mpr fun a ha hb ↦ ?_
  obtain ⟨x, hx, rfl⟩ := List.mem_map.mp ha
  obtain ⟨y, hy, hab⟩ := List.mem_map.mp hb
  exact hij.ne (h.slot_unique hx hy hab.symm)

/-- Every call that has returned has its place. -/
theorem mem_order (P : Points p) {y : Nat × (Int × Int) × Bytes} (hy : y ∈ p.responses) :
    (y.2.1, P.call y, y.2.2) ∈ P.order := by
  have hbound : P.index y ≤ p.log.length :=
    ((P.le y hy).trans (h.stamp _ (Past.mem_responses.mp hy))).trans h.bound
  obtain ⟨j, hj, op, hop, hreq, hfirst⟩ := exists_first (P.mem y hy)
  rw [Points.order, List.mem_flatMap]
  by_cases hget : (P.call y).isGet
  · refine ⟨P.index y - 1, List.mem_range.mpr (by omega), List.mem_append_right _ ?_⟩
    exact Points.mem_readsAt.mpr ⟨y, hy, hget, by omega, rfl⟩
  · refine ⟨j, List.mem_range.mpr (by omega), List.mem_append_left _
      (mem_writeAt.mpr ⟨op, hop, ?_⟩)⟩
    -- the first copy is a copy of this call
    obtain ⟨t, -, hinv⟩ := h.entry j op hop
    obtain ⟨t', hmade⟩ := P.made y hy
    rw [hreq] at hinv
    obtain ⟨-, hcall⟩ := h.unique _ _ _ _ _ hinv hmade
    have hv := P.result y hy
    rw [Call.result_of_not_isGet hget] at hv
    rw [hcall, hreq, hv]
    exact ⟨hget, hfirst, rfl⟩

/-- Each slot leads from the maps before its index to those after it. -/
theorem legal_slot (P : Points p) (hi : i < p.log.length) :
    kvObject.Legal (replay (p.log.take i)).value (P.slot i) ∧
      kvObject.after (replay (p.log.take i)).value (P.slot i) =
        (replay (p.log.take (i + 1))).value := by
  have hop : p.log[i]? = some p.log[i] := List.getElem?_eq_getElem hi
  have hwrite : kvObject.Legal (replay (p.log.take i)).value (writeAt p.log i) ∧
      kvObject.after (replay (p.log.take i)).value (writeAt p.log i) =
        (replay (p.log.take (i + 1))).value := by
    rw [h.ordered.value_succ hop, writeAt, hop]
    dsimp only
    by_cases hdup : p.log[i].request ∈ requests p.log i
    · rw [if_pos (Or.inr hdup), if_pos hdup]
      exact ⟨trivial, rfl⟩
    · rw [if_neg hdup]
      by_cases hget : p.log[i].call.isGet
      · rw [if_pos (Or.inl hget), Call.next_of_isGet hget]
        exact ⟨trivial, rfl⟩
      · rw [if_neg (not_or.mpr ⟨hget, hdup⟩)]
        exact ⟨⟨(Call.result_of_not_isGet hget _).symm, trivial⟩, rfl⟩
  have hreads := kvObject.legal_of_reads (s := (replay (p.log.take (i + 1))).value)
    (l := P.readsAt i) fun x hx ↦ by
      obtain ⟨y, hy, hget, hindex, rfl⟩ := Points.mem_readsAt.mp hx
      exact ⟨Call.next_of_isGet hget _, hindex ▸ P.result y hy⟩
  rw [Points.slot, SeqObject.legal_append, SeqObject.after_append, hwrite.2]
  exact ⟨⟨hwrite.1, hreads.1⟩, hreads.2⟩

/-- The whole order leads from the empty map to the maps of the log. -/
theorem legal_order (P : Points p) : kvObject.Legal kvObject.init P.order ∧
    kvObject.after kvObject.init P.order = (replay p.log).value := by
  have hall := SeqObject.legal_flatMap P.slot (fun i ↦ (replay (p.log.take i)).value)
    fun i hi ↦ h.legal_slot P hi
  rwa [List.take_length] at hall

theorem linearizes (P : Points p) : Linearizes kvObject p.calls P.order where
  nodup := h.nodup_order P
  invoked i op r hx := by
    obtain ⟨j, -, hslot⟩ := List.mem_flatMap.mp hx
    obtain ⟨t, -, hinv⟩ := h.made_of_mem_slot hslot
    exact List.mem_map.mpr ⟨_, hinv, rfl⟩
  completed i r hr := by
    obtain ⟨⟨t, e⟩, he, rfl⟩ := List.mem_map.mp hr
    exact ⟨_, h.mem_order P (Past.mem_responses.mpr he)⟩
  legal := (h.legal_order P).1
  realTime := by
    refine pairwise_flatMap_of_stamps h.sorted (fun i x hx t op ht ↦ ?_)
      fun i x hx t r ht ↦ h.lt_of_mem_slot hx ht
    obtain ⟨t', hle, hinv⟩ := h.made_of_mem_slot hx
    exact (h.unique _ _ _ _ _ ht hinv).1 ▸ hle

end PastInv

end

/-- **The service is linearizable.**  In every run there is an order of the clerks' calls that a map
from strings to strings explains, with every call that has returned in it once and every other call
at most once; and the log leads to the map this order leads to. -/
theorem Service.kv_linearizable {n : Nat} [Labgob Image] {maxraftstate : Int} {σ : Service n}
    (h : (machine n maxraftstate).Reach (fun _ _ _ ↦ True) σ) :
    ∃ l, Linearizes kvObject σ.calls l ∧
      kvObject.after kvObject.init l = (replay σ.log).value := by
  have hpast := (Service.inv_of_reach h).past
  obtain ⟨P⟩ := hpast.nonempty_points
  exact ⟨P.order, hpast.linearizes P, (hpast.legal_order P).2⟩

namespace Service

/-- `guardApply` goes once around its loop with the next command. -/
def around {n : Nat} (a : Fin n) : List (Move n) :=
  [.receive a, .work a .process, .work a .notify, .check a 0]

/-- Clerk `7` sets a key on server `0`; then clerk `8` reads it on server `1`. -/
def putThenGet : List (Move 2) :=
  [.invoke 7 (.put [120] [1]), .send 7 0, .deliver 0, .start 0 0 true, .commit 0] ++ around 0 ++
    [.work 0 (.take 0), .work 0 (.leave 0), .answer 0, .reply 7] ++
  [.invoke 8 (.get [120]), .send 8 1, .deliver 1, .start 1 0 true, .commit 0] ++ around 1 ++
    around 1 ++ [.work 1 (.take 0), .work 1 (.read 0), .work 1 (.leave 0), .answer 1, .reply 8]

theorem kv_linearizable_putThenGet :
    ∃ σ : Service 2, (machine 2 (-1)).Reach (fun _ _ _ ↦ True) σ ∧
      σ.calls = [.invoke (7, 1) (.put [120] [1]), .respond (7, 1) [], .invoke (8, 1) (.get [120]),
        .respond (8, 1) [1]] ∧
      ∃ l, Linearizes kvObject σ.calls l ∧
        kvObject.after kvObject.init l = (replay σ.log).value := by
  obtain ⟨σ, hσ, hcalls⟩ := Machine.exists_reach_of_exec (M := machine 2 (-1))
    (P := fun _ _ _ ↦ True) (Q := fun σ : Service 2 ↦ σ.calls = [.invoke (7, 1) (.put [120] [1]),
      .respond (7, 1) [], .invoke (8, 1) (.get [120]), .respond (8, 1) [1]])
    putThenGet (by decide +kernel)
  exact ⟨σ, hσ, hcalls, kv_linearizable hσ⟩

end Service

end DistLabs.KV
