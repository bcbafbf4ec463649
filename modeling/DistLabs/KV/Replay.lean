import DistLabs.KV.Service
import DistLabs.Lib.Lists

/-!
# What a log with duplicates does

The same request may be in the log several times, since a clerk sends it until it gets an answer.
`guardApply` executes an operation if its number is beyond the last of its client.  If each number
of a client first comes after all smaller ones (`Ordered`), that is the first time the request is in
the log and no other (`Ordered.value_succ`); so the maps go through the states a `kvObject` goes
through under the first occurrences.
-/

set_option autoImplicit false

namespace DistLabs.KV

namespace Store

/-- Executing an operation is making its call on a map. -/
theorem value_execute (s : Store) (op : Op) :
    (s.execute op).value = kvObject.next s.value op.call := by
  obtain ⟨type, key, value, c, m⟩ := op
  funext k
  cases type with
  | get => rfl
  | put | append =>
    by_cases hk : k = key
    · subst hk
      simp [Store.value, execute, kvObject, Op.call]
    · simp [Store.value, execute, kvObject, Op.call, hk]

theorem seq_execute (s : Store) (op : Op) (c : Int) :
    (s.execute op).seq c = if c = op.clientId then op.seqNum else s.seq c := by
  by_cases hc : c = op.clientId
  · subst hc
    simp [seq, execute]
  · simp [seq, execute, hc]

theorem apply_of_le {s : Store} {op : Op} (h : op.seqNum ≤ s.seq op.clientId) : s.apply op = s :=
  if_pos h

theorem apply_of_lt {s : Store} {op : Op} (h : s.seq op.clientId < op.seqNum) :
    s.apply op = s.execute op :=
  if_neg (not_le.mpr h)

end Store

/-! ## Numbers -/

/-- No operation in the log has a number beyond the last of its client. -/
theorem seqNum_le_seq {ops : List Op} {op : Op} (h : op ∈ ops) :
    op.seqNum ≤ (replay ops).seq op.clientId := by
  induction ops using List.reverseRecOn with
  | nil => simp at h
  | append_singleton ops last ih =>
    rw [replay_concat]
    rcases Int.lt_or_le ((replay ops).seq last.clientId) last.seqNum with hlt | hle
    · rw [Store.apply_of_lt hlt, Store.seq_execute]
      rcases List.mem_append.mp h with hold | hnew
      · have := ih hold
        split
        · next hc => rw [hc] at this; omega
        · exact this
      · rw [List.mem_singleton.mp hnew, if_pos rfl]
    · rw [Store.apply_of_le hle]
      rcases List.mem_append.mp h with hold | hnew
      · exact ih hold
      · rwa [List.mem_singleton.mp hnew]

/-- The last number of a client is the number of one of its operations, or there is none. -/
theorem seq_mem (ops : List Op) (c : Int) : (replay ops).seq c = 0 ∨
    ∃ op ∈ ops, op.clientId = c ∧ op.seqNum = (replay ops).seq c := by
  induction ops using List.reverseRecOn with
  | nil => exact Or.inl rfl
  | append_singleton ops last ih =>
    have hold : (replay ops).seq c = 0 ∨
        ∃ op ∈ ops ++ [last], op.clientId = c ∧ op.seqNum = (replay ops).seq c :=
      ih.imp id fun ⟨op, hop, h⟩ ↦ ⟨op, List.mem_append_left _ hop, h⟩
    rw [replay_concat]
    rcases Int.lt_or_le ((replay ops).seq last.clientId) last.seqNum with hlt | hle
    · rw [Store.apply_of_lt hlt, Store.seq_execute]
      split
      · next hc => exact Or.inr ⟨last, by simp, hc.symm, rfl⟩
      · exact hold
    · rw [Store.apply_of_le hle]
      exact hold

/-! ## First occurrences -/

/-- The requests that are among the first `k` commands. -/
def requests (log : List Op) (k : Nat) : List (Int × Int) := (log.take k).map Op.request

/-- Numbers are positive, and behind each one all smaller ones of its client have occurred. -/
def Ordered (log : List Op) : Prop :=
  ∀ i op, log[i]? = some op → 0 < op.seqNum ∧
    ∀ m, 0 < m → m < op.seqNum → helpKey op.clientId m ∈ requests log i

variable {log : List Op} {i : Nat} {op : Op}

theorem requests_mono {k k' : Nat} (h : k ≤ k') : requests log k ⊆ requests log k' :=
  List.map_subset _ (List.take_subset_take_left log h)

/-- **A duplicate** is not beyond the last number of its client, -/
theorem seqNum_le_of_mem_requests {k : Nat} (h : op.request ∈ requests log k) :
    op.seqNum ≤ (replay (log.take k)).seq op.clientId := by
  obtain ⟨op', hmem, heq⟩ := List.mem_map.mp h
  rw [Op.request, Op.request, helpKey, helpKey, Prod.mk.injEq] at heq
  rw [← heq.1, ← heq.2]
  exact seqNum_le_seq hmem

/-- **and a first occurrence** is. -/
theorem Ordered.seq_lt (h : Ordered log) (hop : log[i]? = some op)
    (hfirst : op.request ∉ requests log i) :
    (replay (log.take i)).seq op.clientId < op.seqNum := by
  obtain ⟨hpos, -⟩ := h i op hop
  rcases seq_mem (log.take i) op.clientId with h0 | ⟨op', hmem, hc, hseq⟩
  · omega
  · -- an operation with a larger number would have had this one before it
    by_contra hge
    rw [← hseq, not_lt] at hge
    obtain ⟨j, hj, hget⟩ := List.mem_take_iff_getElem.mp hmem
    have hget' : log[j]? = some op' := by rw [← hget, List.getElem?_eq_getElem]
    refine hfirst ?_
    rcases hge.eq_or_lt with heq | hlt
    · refine List.mem_map.mpr ⟨op', hmem, ?_⟩
      rw [Op.request, Op.request, hc, heq]
    · have := (h j op' hget').2 op.seqNum hpos hlt
      rw [hc] at this
      exact requests_mono (by omega) this

theorem take_succ_of_getElem? (h : log[i]? = some op) : log.take (i + 1) = log.take i ++ [op] := by
  rw [List.take_add_one, h]
  rfl

/-- **One index of the log**: the maps change as a `kvObject` does if the request is there for the
first time, and not at all otherwise. -/
theorem Ordered.value_succ (h : Ordered log) (hop : log[i]? = some op) :
    (replay (log.take (i + 1))).value = if op.request ∈ requests log i
      then (replay (log.take i)).value else kvObject.next (replay (log.take i)).value op.call := by
  rw [take_succ_of_getElem? hop, replay_concat]
  split
  · next hdup => rw [Store.apply_of_le (seqNum_le_of_mem_requests hdup)]
  · next hfirst => rw [Store.apply_of_lt (h.seq_lt hop hfirst), Store.value_execute]

/-- The next command keeps the order if all smaller numbers of its client are in the log. -/
theorem Ordered.concat (h : Ordered log) (hpos : 0 < op.seqNum)
    (hall : ∀ m, 0 < m → m < op.seqNum → helpKey op.clientId m ∈ requests log log.length) :
    Ordered (log ++ [op]) := by
  intro i op' hi
  have htake : ∀ {k}, k ≤ log.length → requests (log ++ [op]) k = requests log k := fun hk ↦ by
    rw [requests, requests, List.take_append_of_le_length hk]
  rcases List.getElem?_concat_cases hi with hold | ⟨rfl, rfl⟩
  · rw [htake (List.getElem?_eq_some_iff.mp hold).1.le]
    exact h i op' hold
  · rw [htake le_rfl]
    exact ⟨hpos, hall⟩

end DistLabs.KV
