import DistLabs.KV.EndToEnd
import DistLabs.Porcupine.Keys

/-!
# The store passes the check of its tests

The tests of the key/value store log what their clients do, with the times before and after each
call, and give the log to the linearizability checker (`test_test.go`, with
`CheckOperationsVerbose`).  Here the deployment and the checker come together: in a deployment that
is `Sound`, the log of a test in which all calls have returned is linearizable, so that the checker
does not say Illegal, and says Ok if the log is not empty and it has time enough.

The clock of the test is any function of the events of the deployment that does not go back.
-/

set_option autoImplicit false

namespace DistLabs.KV

open Porcupine

/-! ## The log of a test -/

/-- The input that `Get`, `Put` and `Append` of the tests log. -/
def Call.kvInput : Call → KvInput
  | .get key => ⟨0, key, []⟩
  | .put key value => ⟨1, key, value⟩
  | .append key value => ⟨2, key, value⟩

/-- The output they log. -/
def Call.kvOutput : Call → Bytes → KvOutput
  | .get _, v => ⟨v⟩
  | .put _ _, _ | .append _ _, _ => ⟨[]⟩

/-- The calls of clerks, and when they return. -/
abbrev Hist := List (CallEvent (Int × Int) Call Bytes)

/-- The operation that is logged for call `i`: one time is taken before the call, and one after it
has returned. -/
def Logged (clock : ℕ → Int) (h : Hist) (i : Int × Int) (op : Operation KvInput KvOutput) : Prop :=
  ∃ p q call v, h[p]? = some (.invoke i call) ∧ h[q]? = some (.respond i v) ∧
    op.input = call.kvInput ∧ op.output = call.kvOutput v ∧ op.call ≤ clock p ∧ clock q ≤ op.ret

/-- The log of a test, in any order. -/
def Logs (clock : ℕ → Int) (h : Hist) (ops : List (Operation KvInput KvOutput)) : Prop :=
  ∃ ids : List (Int × Int), ids.Nodup ∧ (∀ i, i ∈ ids ↔ ∃ v, .respond i v ∈ h) ∧
    List.Forall₂ (Logged clock h) ids ops

/-- Every call has returned. -/
def Complete (h : Hist) : Prop := ∀ i call, .invoke i call ∈ h → ∃ v, .respond i v ∈ h

/-! ## From histories to logs -/

/-- The map of the checker does what the store is for. -/
theorem runOp_kvObject {s : Bytes → Bytes} {call : Call} {op : Operation KvInput KvOutput}
    (hin : op.input = call.kvInput) (hout : op.output = call.kvOutput (kvObject.result s call)) :
    runOp (keyedStep KvInput.key kvModel.step) s op = some (kvObject.next s call) := by
  rw [runOp, hin, hout]
  cases call with
  | get key => simp [Call.kvInput, Call.kvOutput, keyedStep, kvModel, kvObject]
  | put key value => rfl
  | append key value => rfl

/-- An order that explains the answers is accepted. -/
theorem foldlM_of_legal {l : List ((Int × Int) × Call × Bytes)}
    {order : List (Operation KvInput KvOutput)}
    (h : List.Forall₂ (fun x op ↦ op.input = x.2.1.kvInput ∧ op.output = x.2.1.kvOutput x.2.2)
      l order) {s : Bytes → Bytes} (hlegal : kvObject.Legal s l) :
    (order.foldlM (runOp (keyedStep KvInput.key kvModel.step)) s).isSome := by
  induction h generalizing s with
  | nil => rfl
  | @cons x op l order hx _ ih =>
    obtain ⟨i, call, v⟩ := x
    obtain ⟨rfl, hlegal⟩ := hlegal
    rw [List.foldlM_cons, runOp_kvObject hx.1 hx.2]
    exact ih hlegal

variable {clock : ℕ → Int} {h : Hist} {ops : List (Operation KvInput KvOutput)}
  {l : List ((Int × Int) × Call × Bytes)}

theorem Logs.call_le_ret (hlog : Logs clock h ops) (hw : WellFormed h)
    (hclock : ∀ k m, k ≤ m → clock k ≤ clock m) : ∀ op ∈ ops, op.call ≤ op.ret := by
  obtain ⟨ids, -, -, hrel⟩ := hlog
  induction hrel with
  | nil => simp
  | cons hop _ ih =>
    obtain ⟨p, q, call, v, hp, hq, -, -, hcall, hret⟩ := hop
    refine List.forall_mem_cons.mpr ⟨?_, ih⟩
    exact hcall.trans ((hclock _ _ (hw.invoke_lt_respond hp hq).le).trans hret)

/-- **The log of a linearizable history is linearizable.** -/
theorem Logs.mapLinearizable (hlog : Logs clock h ops) (hw : WellFormed h)
    (hclock : ∀ k m, k ≤ m → clock k ≤ clock m) (hdone : Complete h)
    (hl : Linearizes kvObject h l) : MapLinearizable ops := by
  obtain ⟨ids, hnd, hids, hrel⟩ := hlog
  -- the calls of the order are those of the log
  have hperm : (l.map Prod.fst).Perm ids := by
    refine (List.perm_ext_iff_of_nodup hl.nodup hnd).mpr fun i ↦ ?_
    rw [hids]
    constructor
    · intro hi
      obtain ⟨⟨i, call, v⟩, hx, rfl⟩ := List.mem_map.mp hi
      exact hdone i call (hl.invoked i call v hx)
    · rintro ⟨v, hv⟩
      obtain ⟨call, hmem⟩ := hl.completed i v hv
      exact List.mem_map.mpr ⟨_, hmem, rfl⟩
  obtain ⟨order, hrel, hperm⟩ := List.perm_comp_forall₂ hperm hrel
  rw [List.forall₂_map_left_iff] at hrel
  refine ⟨order, hperm, foldlM_of_legal ?_ hl.legal, forall₂_pairwise hrel ?_ hl.realTime⟩
  · -- what is logged for a call is what the order has for it
    refine List.Forall₂.imp ?_ ((List.forall₂_and_left _ _).mpr ⟨fun x hx ↦ hx, hrel⟩)
    rintro ⟨i, call, v⟩ op ⟨hx, p, q, call', v', hp, hq, hin, hout, -⟩
    obtain ⟨k, hk⟩ := List.getElem?_of_mem (hl.invoked i call v hx)
    obtain rfl := hw.invoke_unique hp hk
    obtain rfl : call' = call := by simpa [hp] using hk
    obtain ⟨call'', hmem⟩ := hl.completed i v' (List.mem_of_getElem? hq)
    have heq := List.inj_on_of_nodup_map hl.nodup hx hmem rfl
    obtain rfl : v = v' := congrArg (·.2.2) heq
    exact ⟨hin, hout⟩
  · -- what had returned by the clock had returned
    rintro x a y b ⟨p, q, call, v, hp, -, -, -, hcall, -⟩
      ⟨p', q', call', v', -, hq', -, -, -, hret⟩ hprec hlt
    refine hprec (Precedes.of_lt hq' hp (not_le.mp fun hle ↦ ?_))
    have := hclock _ _ hle
    omega

/-! ## The calls of the clerks -/

section

variable {n : Nat} [NeZero n] [Labgob (Saved n Op)] [Labgob Image] {maxraftstate : Int}
  {δ δ' : Deployment n} {deed : Deed n}

omit [Labgob (Saved n Op)] [Labgob Image] [NeZero n] in
/-- Clerks number their calls. -/
structure Deployment.HistInv (δ : Deployment n) : Prop where
  /-- Calls are made and return once. -/
  wellFormed : WellFormed δ.hist
  /-- Those that were made have numbers up to the clerk's own, -/
  invoked : ∀ c m call, .invoke (c, m) call ∈ δ.hist →
    m < (δ.client c).seqNum ∨ m = (δ.client c).seqNum ∧ (δ.client c).call ≠ none
  /-- and those that have returned smaller ones. -/
  responded : ∀ c m v, .respond (c, m) v ∈ δ.hist → m < (δ.client c).seqNum

namespace Deployment

omit [Labgob (Saved n Op)] [Labgob Image] [NeZero n] in
/-- Only the numbers and the calls of the clerks matter. -/
theorem HistInv.congr (h : δ.HistInv) (hhist : δ'.hist = δ.hist)
    (hseq : ∀ c, (δ'.client c).seqNum = (δ.client c).seqNum)
    (hcall : ∀ c, (δ'.client c).call = (δ.client c).call) : δ'.HistInv where
  wellFormed := hhist ▸ h.wellFormed
  invoked c m call hmem := by
    rw [hseq, hcall]
    exact h.invoked c m call (hhist ▸ hmem)
  responded c m v hmem := by
    rw [hseq]
    exact h.responded c m v (hhist ▸ hmem)

omit [Labgob (Saved n Op)] [Labgob Image] [NeZero n] in
/-- A clerk changes in something else. -/
theorem HistInv.setClient (h : δ.HistInv) {c : Int} {ck : Client n}
    (hclient : δ'.client = Function.update δ.client c ck) (hhist : δ'.hist = δ.hist)
    (hseq : ck.seqNum = (δ.client c).seqNum) (hcall : ck.call = (δ.client c).call) :
    δ'.HistInv := by
  have hall : ∀ c', (δ'.client c').seqNum = (δ.client c').seqNum ∧
      (δ'.client c').call = (δ.client c').call := by
    intro c'
    rcases eq_or_ne c' c with rfl | hne
    · rw [hclient, Function.update_self]
      exact ⟨hseq, hcall⟩
    · rw [hclient, Function.update_of_ne hne]
      exact ⟨rfl, rfl⟩
  exact h.congr hhist (fun c ↦ (hall c).1) fun c ↦ (hall c).2

theorem HistInv.step (h : δ.HistInv) (hs : Step maxraftstate δ deed δ') : δ'.HistInv := by
  cases hs with
  | system => exact h.congr rfl (fun _ ↦ rfl) fun _ ↦ rfl
  | send => exact h.setClient rfl rfl rfl rfl
  | lose => exact h.setClient rfl rfl rfl rfl
  | retry => exact h.setClient rfl rfl rfl rfl
  | deliver => exact h.congr rfl (fun _ ↦ rfl) fun _ ↦ rfl
  | answer => exact h.congr rfl (fun _ ↦ rfl) fun _ ↦ rfl
  | restart => exact h.congr rfl (fun _ ↦ rfl) fun _ ↦ rfl
  | @invoke c call hc =>
    refine ⟨h.wellFormed.concat fun e he hid ↦ ?_, fun c' m call' hmem ↦ ?_, fun c' m v hmem ↦ ?_⟩
    · exfalso
      cases e with
      | invoke i call' =>
        obtain rfl : i = (c, (δ.client c).seqNum) := hid
        rcases h.invoked _ _ _ he with hlt | ⟨-, hne⟩
        · exact lt_irrefl _ hlt
        · exact hne hc
      | respond i v =>
        obtain rfl : i = (c, (δ.client c).seqNum) := hid
        exact lt_irrefl _ (h.responded _ _ _ he)
    · dsimp only [Deployment.setClient] at hmem ⊢
      rcases eq_or_ne c' c with rfl | hne
      · rw [Function.update_self]
        rcases List.mem_append.mp hmem with hmem | hmem
        · rcases h.invoked _ _ _ hmem with hlt | ⟨heq, -⟩
          · exact Or.inl hlt
          · exact Or.inr ⟨heq, by simp⟩
        · obtain ⟨rfl, -⟩ : m = (δ.client c').seqNum ∧ call' = call := by simpa using hmem
          exact Or.inr ⟨rfl, by simp⟩
      · rw [Function.update_of_ne hne]
        refine h.invoked c' m call' ((List.mem_append.mp hmem).resolve_right fun h ↦ hne ?_)
        exact congrArg (·.id.1) (List.mem_singleton.mp h)
    · dsimp only [Deployment.setClient] at hmem ⊢
      have hold := h.responded c' m v (by simpa using hmem)
      rcases eq_or_ne c' c with rfl | hne
      · rwa [Function.update_self]
      · rwa [Function.update_of_ne hne]
  | @reply c call r rq reply v hc hw hr hp hv =>
    refine ⟨h.wellFormed.concat fun e he hid ↦ ⟨?_, _, _, rfl⟩, fun c' m call' hmem ↦ ?_,
      fun c' m v' hmem ↦ ?_⟩
    · cases e with
      | invoke i call' => exact ⟨_, _, rfl⟩
      | respond i v' =>
        obtain rfl : i = (c, (δ.client c).seqNum) := hid
        exact absurd (h.responded _ _ _ he) (lt_irrefl _)
    · dsimp only [Deployment.setClient] at hmem ⊢
      have hold := h.invoked c' m call' (by simpa using hmem)
      rcases eq_or_ne c' c with rfl | hne
      · rw [Function.update_self]
        dsimp only
        omega
      · rwa [Function.update_of_ne hne]
    · dsimp only [Deployment.setClient] at hmem ⊢
      rcases eq_or_ne c' c with rfl | hne
      · rw [Function.update_self]
        dsimp only
        rcases List.mem_append.mp hmem with hmem | hmem
        · have := h.responded _ _ _ hmem
          omega
        · obtain ⟨rfl, -⟩ : m = (δ.client c').seqNum ∧ v' = v := by simpa using hmem
          omega
      · rw [Function.update_of_ne hne]
        refine h.responded c' m v' ((List.mem_append.mp hmem).resolve_right fun h ↦ hne ?_)
        exact congrArg (·.id.1) (List.mem_singleton.mp h)

theorem histInv_of_reach {P : Deployment n → Deed n → Deployment n → Prop}
    (h : (machine n maxraftstate).Reach P δ) : δ.HistInv :=
  h.invariant ⟨List.Pairwise.nil, fun _ _ _ h ↦ absurd h List.not_mem_nil,
      fun _ _ _ h ↦ absurd h List.not_mem_nil⟩
    fun _ _ _ _ hinv hs _ ↦ hinv.step (.of_step hs)

end Deployment

/-- **The store passes the check of its tests.**  Take a run of the deployment, whatever is lost,
delayed or crashes in it, whose elections are won by majorities, as they always are among three
servers, and in which snapshots do not overtake commands, as they cannot without snapshots
(`Deployment.Sound`).  If all calls have returned, then the checker ends on their log and never
finds it Illegal; what it returns without a timeout is Ok, and it does return, unless the log is
empty; and with a timeout it returns Ok or Unknown. -/
theorem deployment_passes
    (h : (Deployment.machine n maxraftstate).Reach (Deployment.Sound maxraftstate) δ)
    (hdone : Complete δ.hist) (hclock : ∀ k m, k ≤ m → clock k ≤ clock m)
    (hlog : Logs clock δ.hist ops) (s : TimeSort KvInput KvOutput) (verbose timeout : Bool) :
    (∃ bound, ∀ as p, (Parallel.machine (checkOperations s ops verbose timeout)).exec
      (fun _ _ _ ↦ True) (.start (checkOperations s ops verbose timeout)) as = some p →
        as.length ≤ bound) ∧
    ∀ p, (Parallel.machine (checkOperations s ops verbose timeout)).Reach (fun _ _ _ ↦ True) p →
      p.main ≠ .returned .illegal ∧
      (timeout = false → ∀ r, p.main = .returned r → r = .ok) ∧
      ((∀ a, p.step (checkOperations s ops verbose timeout) a = none) →
        (timeout = false → ops ≠ [] → p.main = .returned .ok) ∧
        (timeout = true → p.main = .returned .ok ∨ p.main = .returned .unknown)) := by
  have hw := (Deployment.histInv_of_reach h).wellFormed
  have hint := hlog.call_le_ret hw hclock
  obtain ⟨σ, hσ, hR⟩ := refines_of_reach (Deployment.reach_proper h)
  have hpast := (Service.inv_of_reach hσ).past
  obtain ⟨P⟩ := hpast.nonempty_points
  have hlin := hlog.mapLinearizable hw hclock hdone (hR.above.calls ▸ hpast.linearizes P)
  refine ⟨Job.exists_steps_le (checkOperations_matched s verbose timeout hint) kvModel_congruent,
    fun p hr ↦ ?_⟩
  have hlegal : p.main ≠ .returned .illegal :=
    fun hret ↦ not_mapLinearizable_of_illegal hint hr hret hlin
  have hok : timeout = false → ∀ r, p.main = .returned r → r = .ok :=
    fun ht r hret ↦ ok_of_mapLinearizable hint hr ht hlin hret
  refine ⟨hlegal, hok, fun hstuck ↦ ?_⟩
  have hiff := checkOperations_returned_iff hint hr hstuck
  constructor
  · intro ht hne
    obtain ⟨r, hret⟩ := hiff.mpr (Or.inl hne)
    rw [hret, hok ht r hret]
  · intro ht
    obtain ⟨r, hret⟩ := hiff.mpr (Or.inr ht)
    cases r with
    | ok => exact Or.inl hret
    | illegal => exact absurd hret hlegal
    | unknown => exact Or.inr hret

end

/-! ## A test -/

/-- The log of a test with one put. -/
def firstPutLog : List (Operation KvInput KvOutput) :=
  [⟨0, ⟨1, [120], [1]⟩, 0, ⟨[]⟩, 1⟩]

theorem deployment_passes_firstPut :
    ∃ (δ : Deployment 3) (p : Parallel Bytes KvInput KvOutput),
      (Deployment.machine 3 1000).Reach (Deployment.Sound 1000) δ ∧
      δ.hist = [.invoke (7, 1) (.put [120] [1]), .respond (7, 1) []] ∧
      (Parallel.machine (checkOperations .insertion firstPutLog true false)).Reach
        (fun _ _ _ ↦ True) p ∧
      (∀ a, p.step (checkOperations .insertion firstPutLog true false) a = none) ∧
      p.main = .returned .ok := by
  obtain ⟨δ, hδ, hist⟩ := Machine.exists_reach_of_exec (M := Deployment.machine 3 1000)
    (P := Deployment.Sound 1000)
    (Q := fun δ ↦ δ.hist = [.invoke (7, 1) (.put [120] [1]), .respond (7, 1) []])
    Deployment.firstPut (by decide +kernel)
  obtain ⟨p, hp, hret, hsent⟩ := Machine.exists_reach_of_exec
    (M := Parallel.machine (checkOperations .insertion firstPutLog true false))
    (P := fun _ _ _ ↦ True)
    (Q := fun p ↦ p.main = .returned .ok ∧ p.routines.all Routine.isSent = true)
    [.turn 0, .turn 0, .send 0, .receive, .finish] (by decide)
  have hstuck := Parallel.stuck_of_returned
    (J := checkOperations .insertion firstPutLog true false) hret hsent
  have hclock (a b : ℕ) (hab : a ≤ b) : (a : Int) ≤ b := Int.ofNat_le.mpr hab
  have hdone : Complete δ.hist := by
    rw [hist]
    intro i call hmem
    obtain ⟨rfl, -⟩ : i = (7, 1) ∧ call = .put [120] [1] := by simpa using hmem
    exact ⟨[], by simp⟩
  have hlog : Logs (fun k ↦ (k : Int)) δ.hist firstPutLog := by
    rw [hist]
    refine ⟨[(7, 1)], List.nodup_singleton _, fun i ↦ by simp, .cons ?_ .nil⟩
    exact ⟨0, 1, .put [120] [1], [], rfl, rfl, rfl, rfl, by decide, by decide⟩
  have hpasses := (deployment_passes hδ hdone hclock hlog .insertion true false).2 p hp
  exact ⟨δ, p, hδ, hist, hp, hstuck, (hpasses.2.2 hstuck).1 rfl (by decide)⟩

end DistLabs.KV
