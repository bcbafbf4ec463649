import DistLabs.KV.Replicas
import Mathlib.Order.Bounds.Basic

/-!
# A replica is a function of the log prefix

Whatever reaches a server — commands one after the other, duplicates among them, snapshots of
servers that are ahead, its own snapshot after a restart — its maps depend on `lastApplied` alone.
`Fed log` are the servers that any such mixture can lead to, for one sequence `log` of commands,
with their handlers and their `Snapshot` calls going on in between.

What the maps are is said without `lastSeq`: the number kept for a client is the largest of its
positive numbers so far, and the values are what plain `Put` and `Append` make of the *effective*
commands, those with a positive number beyond all earlier ones of their client (`replica_prefix`).
-/

set_option autoImplicit false

namespace DistLabs.KV

/-! ## Effective commands -/

/-- After the commands `seen`, the command has a positive number beyond all those of its client. -/
def Op.Effective (op : Op) (seen : List Op) : Prop :=
  0 < op.seqNum ∧ ∀ op' ∈ seen, op'.clientId = op.clientId → op'.seqNum < op.seqNum

instance (op : Op) (seen : List Op) : Decidable (op.Effective seen) :=
  inferInstanceAs (Decidable (_ ∧ _))

/-- The effective commands of a log. -/
def effective (log : List Op) : List Op :=
  (log.zipIdx.filter fun p ↦ p.1.Effective (log.take p.2)).map Prod.fst

/-- Plain `Put` and `Append` on a map. -/
def putAppend (kvMap : AList fun _ : Bytes ↦ Bytes) (op : Op) : AList fun _ : Bytes ↦ Bytes :=
  match op.type with
  | .get => kvMap
  | .put => kvMap.insert op.key op.value
  | .append => kvMap.insert op.key ((kvMap.lookup op.key).getD [] ++ op.value)

theorem effective_concat (log : List Op) (op : Op) :
    effective (log ++ [op]) = effective log ++ if op.Effective log then [op] else [] := by
  have hold : log.zipIdx.filter (fun p ↦ p.1.Effective ((log ++ [op]).take p.2)) =
      log.zipIdx.filter fun p ↦ p.1.Effective (log.take p.2) := by
    refine List.filter_congr fun p hp ↦ ?_
    have hlt : p.2 < log.length := by simpa using (List.mem_zipIdx hp).2.1
    rw [List.take_append_of_le_length hlt.le]
  rw [effective, List.zipIdx_append, List.filter_append, hold, List.map_append, effective]
  congr 1
  by_cases h : op.Effective log <;> simp [h]

theorem seq_nonneg (ops : List Op) (c : Int) : 0 ≤ (replay ops).seq c := by
  induction ops using List.reverseRecOn with
  | nil => exact le_rfl
  | append_singleton ops op ih =>
    rw [replay_concat]
    rcases Int.lt_or_le ((replay ops).seq op.clientId) op.seqNum with hlt | hle
    · rw [Store.apply_of_lt hlt, Store.seq_execute]
      split
      · next hc =>
        subst hc
        omega
      · exact ih
    · rw [Store.apply_of_le hle]
      exact ih

/-- **The number kept for a client** is the largest of its positive numbers. -/
theorem seq_isGreatest (ops : List Op) (c : Int) :
    IsGreatest (insert 0 {m | ∃ op ∈ ops, op.clientId = c ∧ op.seqNum = m})
      ((replay ops).seq c) := by
  refine ⟨seq_mem ops c, ?_⟩
  rintro m (rfl | ⟨op, hop, rfl, rfl⟩)
  · exact seq_nonneg ops c
  · exact seqNum_le_seq hop

/-- The commands that are executed are the effective ones. -/
theorem effective_iff (ops : List Op) (op : Op) :
    op.Effective ops ↔ (replay ops).seq op.clientId < op.seqNum := by
  constructor
  · rintro ⟨hpos, hall⟩
    rcases seq_mem ops op.clientId with h0 | ⟨op', hmem, hc, hseq⟩
    · omega
    · exact hseq ▸ hall op' hmem hc
  · intro hlt
    refine ⟨(seq_nonneg ops _).trans_lt hlt, fun op' hmem hc ↦ ?_⟩
    have := seqNum_le_seq hmem
    rw [hc] at this
    omega

/-- **The values** are what the effective commands make of an empty map. -/
theorem kvMap_replay (ops : List Op) :
    (replay ops).kvMap = (effective ops).foldl putAppend ∅ := by
  induction ops using List.reverseRecOn with
  | nil => rfl
  | append_singleton ops op ih =>
    rw [replay_concat, effective_concat, List.foldl_append, ← ih]
    by_cases h : op.Effective ops
    · rw [if_pos h, Store.apply_of_lt ((effective_iff ops op).mp h)]
      rfl
    · rw [if_neg h, Store.apply_of_le (not_lt.mp fun hlt ↦ h ((effective_iff ops op).mpr hlt))]
      rfl

/-! ## Servers and their messages -/

section

variable [Labgob Image]

/-- The servers that messages about the commands `log` can lead to.  Commands come with consecutive
indexes.  A snapshot was encoded by such a server, and is not behind the last message. -/
inductive Fed (log : List Op) : KVServer → Prop
  /-- A server that starts with an empty persister. -/
  | fresh : Fed log (.startKVServer [])
  /-- A server that starts from a snapshot. -/
  | restored {src : KVServer} (h : Fed log src) : Fed log (.startKVServer src.encodeSnapshot)
  /-- `guardApply` receives the next command. -/
  | command {kv kv' : KVServer} {op : Op} {T : Int} (h : Fed log kv)
      (hop : log[kv.lastApplied]? = some op)
      (hr : kv.receive (.command (kv.lastApplied + 1) (some op) T) = some kv') : Fed log kv'
  /-- `guardApply` receives a snapshot. -/
  | snapshot {kv kv' src : KVServer} {T : Int} (h : Fed log kv) (hsrc : Fed log src)
      (hle : kv.lastApplied ≤ src.lastApplied)
      (hr : kv.receive (.snapshot src.lastApplied T src.encodeSnapshot) = some kv') : Fed log kv'
  /-- The server goes on by itself, with the message in hand among other things. -/
  | work {kv kv' : KVServer} {task : KVServer.Task} (h : Fed log kv)
      (hw : kv.work task = some kv') :
      Fed log kv'
  /-- The size check. -/
  | check {kv kv' : KVServer} {maxraftstate : Int} {size : Nat} (h : Fed log kv)
      (hc : kv.check maxraftstate size = some kv') : Fed log kv'
  /-- A request comes in. -/
  | handle {kv : KVServer} (op : Op) (h : Fed log kv) : Fed log (kv.handle op)
  /-- `Start` has returned. -/
  | started {kv kv' : KVServer} {hd : Nat} {isLeader : Bool} (h : Fed log kv)
      (hs : kv.started hd isLeader = some kv') : Fed log kv'

/-- What the message in hand has to be, after the first `k` commands. -/
def Awaited (log : List Op) (k : Nat) : Guard → Prop
  | .holding (.command index cmd _) => index = k + 1 ∧ ∃ op, cmd = some op ∧ log[k]? = some op
  | .holding (.snapshot index _ data) =>
    index ≤ log.length ∧ data = Labgob.encode (image (log.take index))
  | .receiving | .notifying _ _ | .checking => True

/-- A server and the commands it has applied. -/
structure PrefixInv (log : List Op) (kv : KVServer) : Prop where
  /-- They are there. -/
  le : kv.lastApplied ≤ log.length
  /-- Its state is theirs. -/
  image : kv.toImage = image (log.take kv.lastApplied)
  /-- The message in hand comes next. -/
  hand : Awaited log kv.lastApplied kv.guard

variable {log : List Op} {kv kv' : KVServer}

namespace PrefixInv

theorem encode (h : PrefixInv log kv) :
    kv.encodeSnapshot = Labgob.encode (KV.image (log.take kv.lastApplied)) :=
  congrArg Labgob.encode h.image

/-- Nothing happens to the maps. -/
theorem congr (h : PrefixInv log kv) (him : kv'.toImage = kv.toImage)
    (hhand : Awaited log kv.lastApplied kv'.guard) : PrefixInv log kv' := by
  have happ : kv'.lastApplied = kv.lastApplied := congrArg Image.lastApplied him
  refine ⟨happ ▸ h.le, ?_, happ ▸ hhand⟩
  rw [him]
  exact h.image

/-- A snapshot of the first `k` commands is taken over. -/
theorem of_image {k : Nat} (hk : k ≤ log.length) (him : kv.toImage = KV.image (log.take k))
    (hhand : Awaited log k kv.guard) : PrefixInv log kv := by
  have happ : kv.lastApplied = k := by
    rw [image_take hk] at him
    exact congrArg Image.lastApplied him
  subst happ
  exact ⟨hk, him, hhand⟩

/-- **The next command.** -/
theorem applyCommand (h : PrefixInv log kv) {op : Op} (hop : log[kv.lastApplied]? = some op) :
    PrefixInv log (kv.applyCommand (kv.lastApplied + 1) op) := by
  have hlt := (List.getElem?_eq_some_iff.mp hop).1
  refine of_image hlt ?_ ?_
  · rw [KVServer.applyCommand_toImage, image_take hlt, take_succ_of_getElem? hop, replay_concat]
    exact congrArg (fun s ↦ Image.mk (Store.apply s op) _) (congrArg Image.toStore h.image)
  · rw [KVServer.applyCommand]
    split <;> trivial

/-- A section of the server itself. -/
theorem work (h : PrefixInv log kv) {task : KVServer.Task} (hw : kv.Works task kv') :
    PrefixInv log kv' := by
  have hhand := h.hand
  cases hw with
  | take | read | timeout | leave => exact h.congr rfl h.hand
  | notify =>
    refine h.congr rfl ?_
    dsimp only
    split <;> trivial
  | command hg =>
    rw [hg] at hhand
    obtain ⟨rfl, op, heq, hop⟩ := hhand
    obtain rfl := Option.some_inj.mp heq
    exact h.applyCommand hop
  | snapshot hg =>
    rw [hg] at hhand
    obtain ⟨hle, rfl⟩ := hhand
    rw [KVServer.decodeSnapshot_encode]
    refine of_image hle ?_ trivial
    rw [image_take hle]

end PrefixInv

/-- **Every such server has applied a prefix of the log**, by induction over how it came about. -/
theorem Fed.prefixInv (h : Fed log kv) : PrefixInv log kv := by
  induction h with
  | fresh =>
    rw [KVServer.startKVServer, KVServer.decodeSnapshot, if_pos rfl]
    exact ⟨Nat.zero_le _, rfl, trivial⟩
  | restored _ ih =>
    rw [KVServer.startKVServer, ih.encode, KVServer.decodeSnapshot_encode]
    exact PrefixInv.of_image ih.le rfl trivial
  | command _ hop hr ih =>
    obtain ⟨-, rfl⟩ := KVServer.receive_spec hr
    exact ih.congr rfl ⟨rfl, _, rfl, hop⟩
  | snapshot _ _ _ hr ih ihsrc =>
    obtain ⟨-, rfl⟩ := KVServer.receive_spec hr
    exact ih.congr rfl ⟨ihsrc.le, ihsrc.encode⟩
  | work _ hw ih => exact ih.work (KVServer.Works.of_work hw)
  | check _ hc ih =>
    obtain ⟨-, rfl | ⟨-, rfl⟩⟩ := KVServer.check_spec hc
    · exact ih.congr rfl trivial
    · exact ih.congr rfl trivial
  | handle _ _ ih => exact ih.congr rfl ih.hand
  | started _ hs ih =>
    obtain ⟨-, -, -, rfl⟩ := KVServer.started_spec hs
    exact ih.congr rfl ih.hand

/-- The loop of `guardApply` can deal with the next command and come back. -/
theorem Fed.exists_next (h : Fed log kv) (hg : kv.guard = .receiving) {op : Op}
    (hop : log[kv.lastApplied]? = some op) :
    ∃ kv', Fed log kv' ∧ kv'.guard = .receiving ∧ kv'.lastApplied = kv.lastApplied + 1 := by
  have hheld := h.command hop (if_pos hg : kv.receive (.command _ (some op) 0) = some _)
  have happlied := hheld.work (rfl : KVServer.work _ .process = some _)
  -- A duplicate leads straight back to the channel, a new command to the size check first.
  unfold KVServer.applyCommand at happlied
  split at happlied
  · exact ⟨_, happlied.work (rfl : KVServer.work _ .notify = some _), rfl, rfl⟩
  · have hchecking := happlied.work (rfl : KVServer.work _ .notify = some _)
    exact ⟨_, hchecking.check (rfl : KVServer.check _ (-1) 0 = some _), rfl, rfl⟩

/-- Every prefix of the log is applied by some server. -/
theorem exists_fed (log : List Op) {k : Nat} (hk : k ≤ log.length) :
    ∃ kv, Fed log kv ∧ kv.guard = .receiving ∧ kv.lastApplied = k := by
  induction k with
  | zero => exact ⟨_, .fresh, rfl, rfl⟩
  | succ k ih =>
    obtain ⟨kv, hfed, hg, rfl⟩ := ih (by omega)
    exact hfed.exists_next hg (List.getElem?_eq_getElem hk)

/-- **A replica is a function of the log prefix.**  After any sequence of messages, the number kept
for a client is the largest positive number of the client among the commands up to `lastApplied`, or
`0`, and the values are what plain `Put` and `Append` make of the effective commands among them.  So
servers with the same `lastApplied` have the same maps. -/
theorem replica_prefix (h : Fed log kv) :
    kv.lastApplied ≤ log.length ∧
    (∀ c, IsGreatest
      (insert 0 {m | ∃ op ∈ log.take kv.lastApplied, op.clientId = c ∧ op.seqNum = m})
      (kv.seq c)) ∧
    kv.kvMap = (effective (log.take kv.lastApplied)).foldl putAppend ∅ ∧
    ∀ kv', Fed log kv' → kv'.lastApplied = kv.lastApplied →
      kv'.kvMap = kv.kvMap ∧ kv'.lastSeq = kv.lastSeq := by
  have hi := h.prefixInv
  have hstore : kv.toStore = replay (log.take kv.lastApplied) := congrArg Image.toStore hi.image
  refine ⟨hi.le, fun c ↦ ?_, ?_, fun kv' h' happ ↦ ?_⟩
  · rw [hstore]
    exact seq_isGreatest _ c
  · rw [hstore]
    exact kvMap_replay _
  · have hstore' := congrArg Image.toStore h'.prefixInv.image
    rw [happ] at hstore'
    have hsame : kv'.toStore = kv.toStore := hstore'.trans hstore.symm
    exact ⟨congrArg Store.kvMap hsame, congrArg Store.lastSeq hsame⟩

end

/-- A fresh server that has received one command and dealt with it. -/
def afterOne (op : Op) : KVServer :=
  ({ KVServer.startKVServer [] with guard := .holding (.command 1 (some op) 1) } :
    KVServer).applyCommand 1 op

theorem fed_afterOne (op : Op) : Fed [op] (afterOne op) := by
  have hr : (KVServer.startKVServer []).receive (.command 1 (some op) 1) = some _ := rfl
  have hw : ({ KVServer.startKVServer [] with guard := .holding (.command 1 (some op) 1) } :
      KVServer).work .process = some (afterOne op) := rfl
  exact .work (.command .fresh rfl hr) hw

/-- A `Put`, and an `Append` that reaches the log twice. -/
def appendTwice : List Op :=
  [⟨.put, [120], [1], 7, 1⟩, ⟨.append, [120], [2], 7, 2⟩, ⟨.append, [120], [2], 7, 2⟩]

/-- A server that has dealt with all three commands, one that has received its snapshot instead, and
one that is restored from it. -/
theorem replica_prefix_restored :
    (effective appendTwice).length = 2 ∧
    ∃ kv held kv' kv'' : KVServer, Fed appendTwice kv ∧ kv.lastApplied = 3 ∧
      (KVServer.startKVServer []).receive (.snapshot kv.lastApplied 1 kv.encodeSnapshot) =
        some held ∧
      held.work .process = some kv' ∧ kv'' = KVServer.startKVServer kv.encodeSnapshot ∧
      kv.seq 7 = 2 ∧ kv.kvMap = (effective appendTwice).foldl putAppend ∅ ∧
      kv'.kvMap = kv.kvMap ∧ kv'.lastSeq = kv.lastSeq ∧
      kv''.kvMap = kv.kvMap ∧ kv''.lastSeq = kv.lastSeq := by
  obtain ⟨kv, hfed, -, happ⟩ := exists_fed appendTwice (k := 3) (by decide)
  have hr : (KVServer.startKVServer []).receive
      (.snapshot kv.lastApplied 1 kv.encodeSnapshot) = some _ := rfl
  have hheld := Fed.snapshot .fresh hfed (Nat.zero_le _) hr
  have htaken := hheld.work (rfl : KVServer.work _ .process = some _)
  have hrestored : (KVServer.startKVServer kv.encodeSnapshot).lastApplied = kv.lastApplied := by
    rw [KVServer.startKVServer, KVServer.encodeSnapshot, KVServer.decodeSnapshot_encode]
  obtain ⟨-, hseq, hmap, hsame⟩ := replica_prefix hfed
  rw [happ] at hmap hseq
  obtain ⟨htakenMap, htakenSeq⟩ := hsame _ htaken rfl
  obtain ⟨hrestoredMap, hrestoredSeq⟩ := hsame _ (.restored hfed) hrestored
  refine ⟨by decide, kv, _, _, _, hfed, happ, hr, rfl, rfl, ?_, hmap, htakenMap, htakenSeq,
    hrestoredMap, hrestoredSeq⟩
  refine (hseq 7).unique ⟨?_, ?_⟩
  · exact .inr ⟨⟨.append, [120], [2], 7, 2⟩, by decide, rfl, rfl⟩
  · rintro m (rfl | ⟨op, hop, -, rfl⟩)
    · decide
    · revert op
      decide

/-- **A client without positive numbers**: it has sent one command, with number `-5`, which is the
largest of its numbers; `lastSeq` reads `0` for it. -/
theorem negative_number_ignored :
    ∃ (log : List Op) (kv : KVServer), Fed log kv ∧ kv.lastApplied = 1 ∧ kv.seq 7 = 0 ∧
      IsGreatest {m | ∃ op ∈ log.take kv.lastApplied, op.clientId = 7 ∧ op.seqNum = m} (-5) := by
  refine ⟨_, _, fed_afterOne ⟨.put, [120], [1], 7, -5⟩, rfl, rfl, ?_, ?_⟩
  · exact ⟨_, List.mem_singleton_self _, rfl, rfl⟩
  · rintro m ⟨op, hmem, -, rfl⟩
    rw [List.mem_singleton.mp hmem]

end DistLabs.KV
