import DistLabs.Raft.Histories

/-!
# Fast backup

When a follower refuses a request, `stepBack` moves `nextIndex` by what the refusal says, and the
leader tries again.  `backup` repeats the exchange until the follower takes a request or the leader
sends a snapshot, and records the `nextIndex` of every failure.

A failure at `prevLogIndex = p` is of one of three kinds (`Backs`):

* `short`: the follower's log ends before `p`, and the leader goes to its end.  After that no
  request begins beyond the follower's log, so this happens at most once.
* `known`: the leader has an entry of the follower's term there, the last of them at `q`.  The term
  begins at the same index in both logs, so `q < p`, and at `q` both have that term: the next
  request is taken.
* `unknown`: the leader has none, and goes before the follower's first entry of that term.  What is
  left of the follower's log has one term less.

So there is at most one failure for every term the follower has beyond its snapshot, and one more.
-/

set_option autoImplicit false

namespace DistLabs

variable {n : Nat} {Cmd : Type}

/-- How one exchange of a leader and a follower ends. -/
inductive Exchanged (n : Nat) (Cmd : Type)
  /-- The leader sends its snapshot instead. -/
  | snapshot
  /-- The follower takes the request. -/
  | success (rf : Raft n Cmd)
  /-- The follower refuses it, and the leader steps back. -/
  | failure (ld rf : Raft n Cmd)

/-- How the exchanges end. -/
structure BackedUp (n : Nat) (Cmd : Type) where
  /-- `nextIndex` at each failure. -/
  failures : List Int
  /-- `nextIndex` at the end. -/
  next : Int
  /-- The follower that has taken the last request; `none` if the last one is for a snapshot. -/
  follower : Option (Raft n Cmd)

namespace Raft

section Exchange

variable [Labgob (Saved n Cmd)]

/-- One exchange: `singleAppend`, `AppendEntries`, and `stepBack` if that fails. -/
def exchange (ld rf : Raft n Cmd) (i : Fin n) : Option (Exchanged n Cmd) := do
  match ← ld.singleAppend i with
  | none => none
  | some (.install _) => return .snapshot
  | some (.append args) =>
    let (rf', reply) ← rf.appendEntries args
    if reply.success = true then return .success rf'
    else return .failure (← ld.singleAppendReply i args reply) rf'

/-- Up to `fuel` exchanges, one after the other. -/
def backup (i : Fin n) : Nat → Raft n Cmd → Raft n Cmd → Option (BackedUp n Cmd)
  | 0, _, _ => none
  | fuel + 1, ld, rf => do
    let nextIndex ← ld.nextIndex
    match ← ld.exchange rf i with
    | .snapshot => return ⟨[], nextIndex i, none⟩
    | .success rf' => return ⟨[], nextIndex i, some rf'⟩
    | .failure ld' rf' =>
      let rest ← backup i fuel ld' rf'
      return { rest with failures := nextIndex i :: rest.failures }

end Exchange

/-! ## The logs -/

/-- How many different terms there are in a list of entries. -/
def distinctTerms (es : List (Entry Cmd)) : Nat := (es.map Entry.term).toFinset.card

/-- Terms are positive and never decrease. -/
structure Ordered (es : List (Entry Cmd)) : Prop where
  /-- Positive terms. -/
  pos : ∀ e ∈ es, 0 < e.term
  /-- Never decreasing. -/
  mono : es.Pairwise fun e e' ↦ e.term ≤ e'.term

/-- A leader with the whole log `L` and a follower with the whole log `F`, as Raft produces them. -/
structure Facing (ld rf : Raft n Cmd) (L F : List (Entry Cmd)) : Prop where
  /-- The leader leads. -/
  state : ld.state = .leader
  /-- The follower is in no later term. -/
  term_le : rf.currentTerm ≤ ld.currentTerm
  /-- The leader's log has its boundary. -/
  ld_ne : ld.log ≠ []
  /-- The follower's log has its boundary. -/
  rf_ne : rf.log ≠ []
  /-- The leader's log. -/
  leader : ld.HasLog L
  /-- The follower's log. -/
  follower : rf.HasLog F
  /-- The leader's terms. -/
  leader_ordered : Ordered L
  /-- The follower's terms. -/
  follower_ordered : Ordered F
  /-- Log Matching. -/
  matching : Matching F L
  /-- A term that both have begins at the same index. -/
  starts : ∀ t, (∃ e ∈ F, e.term = t) → (∃ e ∈ L, e.term = t) →
    F.findIdx (fun e ↦ e.term = t) = L.findIdx (fun e ↦ e.term = t)
  /-- The follower's snapshot covers what both have. -/
  agree : ∀ i < rf.snapIndex, F[i]? = L[i]?

/-- Where the leader goes after a failure at `prevLogIndex = p`, if its snapshot ends at `ls` and
the follower's at `fs`. -/
inductive Backs (ls fs : Nat) (L F : List (Entry Cmd)) (p : Nat) : Int → Prop
  /-- The follower's log is too short. -/
  | short (hlt : F.length < p) : Backs ls fs L F p (F.length + 1)
  /-- The leader knows the follower's term. -/
  | known {e x : Entry Cmd} {q : Nat} (hp : fs < p) (he : F[p - 1]? = some e)
      (hne : ∀ e', L[p - 1]? = some e' → e.term ≠ e'.term) (hq : ls < q)
      (hx : L[q - 1]? = some x) (hterm : x.term = e.term) : Backs ls fs L F p (q + 1)
  /-- It does not, and goes to where that term begins, as far as the follower can tell. -/
  | unknown {e : Entry Cmd} {y : Nat} (he : F[p - 1]? = some e)
      (hne : ∀ e', L[p - 1]? = some e' → e.term ≠ e'.term) (hy : fs < y) (hle : y ≤ p)
      (hfirst : y = fs + 1 ∨ ∃ x, F[y - 2]? = some x ∧ x.term ≠ e.term) : Backs ls fs L F p y

variable {ld rf : Raft n Cmd} {L F : List (Entry Cmd)}

namespace Ordered

variable {es : List (Entry Cmd)}

theorem term_le (h : Ordered es) {i j : Nat} {e e' : Entry Cmd} (hij : i ≤ j) (he : es[i]? = some e)
    (he' : es[j]? = some e') : e.term ≤ e'.term := by
  rcases Nat.eq_or_lt_of_le hij with rfl | hlt
  · rw [Option.some_inj.mp (he.symm.trans he')]
  · obtain ⟨hi, rfl⟩ := List.getElem?_eq_some_iff.mp he
    obtain ⟨hj, rfl⟩ := List.getElem?_eq_some_iff.mp he'
    exact List.pairwise_iff_getElem.mp h.mono i j hi hj hlt

/-- Between two entries of one term there are only entries of that term. -/
theorem term_between (h : Ordered es) {i j k : Nat} {e x e' : Entry Cmd} (hij : i ≤ j) (hjk : j ≤ k)
    (he : es[i]? = some e) (hx : es[j]? = some x) (he' : es[k]? = some e')
    (heq : e.term = e'.term) :
    x.term = e.term := by
  have h1 := h.term_le hij he hx
  have h2 := h.term_le hjk hx he'
  omega

end Ordered

/-- The first entry of a term. -/
theorem exists_findIdx {es : List (Entry Cmd)} {i : Nat} {e : Entry Cmd} (he : es[i]? = some e) :
    es.findIdx (fun x ↦ x.term = e.term) ≤ i ∧
      ∃ x, es[es.findIdx (fun x ↦ x.term = e.term)]? = some x ∧ x.term = e.term := by
  obtain ⟨hi, rfl⟩ := List.getElem?_eq_some_iff.mp he
  have hle : es.findIdx (fun x ↦ x.term = es[i].term) ≤ i := by
    by_contra hlt
    simpa using List.not_of_lt_findIdx (not_le.mp hlt)
  have hlt : es.findIdx (fun x ↦ x.term = es[i].term) < es.length := by omega
  refine ⟨hle, _, List.getElem?_eq_getElem hlt, ?_⟩
  simpa using List.findIdx_getElem (w := hlt)

namespace Facing

/-- **A term both know.**  It begins at the same index in both logs; so the leader's last entry of
it comes before a place where the leader does not have it, and there the follower has it too. -/
theorem known (h : Facing ld rf L F) {p q : Nat} {e x : Entry Cmd} (hp : 0 < p) (hq : 0 < q)
    (he : F[p - 1]? = some e) (hne : ∀ e', L[p - 1]? = some e' → e.term ≠ e'.term)
    (hx : L[q - 1]? = some x) (hterm : x.term = e.term) :
    q < p ∧ ∃ z, F[q - 1]? = some z ∧ z.term = x.term := by
  obtain ⟨hsp, f, hf, hft⟩ := exists_findIdx he
  obtain ⟨hsq, l, hl, hlt⟩ := exists_findIdx hx
  have hstart := h.starts e.term ⟨e, List.mem_of_getElem? he, rfl⟩
    ⟨x, List.mem_of_getElem? hx, hterm⟩
  rw [hterm, ← hstart] at hsq hl
  have hlenF := (List.getElem?_eq_some_iff.mp he).1
  have hlenL := (List.getElem?_eq_some_iff.mp hx).1
  have hqp : q < p := by
    by_contra hge
    have he' := List.getElem?_eq_getElem (l := L) (i := p - 1) (by omega)
    have := h.leader_ordered.term_between hsp (show p - 1 ≤ q - 1 by omega) hl he' hx hlt
    exact hne _ he' (by omega)
  have hz := List.getElem?_eq_getElem (l := F) (i := q - 1) (by omega)
  have := h.follower_ordered.term_between hsq (show q - 1 ≤ p - 1 by omega) hf hz he hft
  exact ⟨hqp, _, hz, by omega⟩

end Facing

/-! ## Counting terms -/

/-- The number of terms from behind index `fs` through index `p`. -/
def termsThrough (fs : Nat) (F : List (Entry Cmd)) (p : Nat) : Nat :=
  distinctTerms ((F.take p).drop fs)

theorem mem_through {fs p : Nat} {t : Int} : t ∈ (((F.take p).drop fs).map Entry.term).toFinset ↔
    ∃ i e, fs ≤ i ∧ i < p ∧ F[i]? = some e ∧ e.term = t := by
  rw [List.mem_toFinset, List.mem_map]
  constructor
  · rintro ⟨e, he, rfl⟩
    obtain ⟨j, hj⟩ := List.mem_iff_getElem?.mp he
    rw [List.getElem?_drop, List.getElem?_take] at hj
    split at hj
    · exact ⟨fs + j, e, by omega, by omega, hj, rfl⟩
    · simp at hj
  · rintro ⟨i, e, hle, hlt, he, rfl⟩
    refine ⟨e, List.mem_iff_getElem?.mpr ⟨i - fs, ?_⟩, rfl⟩
    rw [List.getElem?_drop, List.getElem?_take, if_pos (by omega), ← he]
    congr 1
    omega

theorem termsThrough_le (fs : Nat) (F : List (Entry Cmd)) (p : Nat) :
    termsThrough fs F p ≤ distinctTerms (F.drop fs) := by
  rw [termsThrough, distinctTerms, distinctTerms]
  refine Finset.card_le_card fun t ht ↦ ?_
  obtain ⟨i, e, hle, -, he, rfl⟩ := mem_through.mp ht
  refine List.mem_toFinset.mpr (List.mem_map.mpr ⟨e, List.mem_iff_getElem?.mpr ⟨i - fs, ?_⟩, rfl⟩)
  rw [List.getElem?_drop, ← he]
  congr 1
  omega

/-- Before the first entry of the follower's term at `p` there is one term less. -/
theorem termsThrough_lt (ho : Ordered F) {fs p y : Nat} {e : Entry Cmd} (he : F[p - 1]? = some e)
    (hy : fs < y) (hle : y ≤ p)
    (hfirst : y = fs + 1 ∨ ∃ x, F[y - 2]? = some x ∧ x.term ≠ e.term) :
    termsThrough fs F (y - 1) < termsThrough fs F p := by
  rw [termsThrough, termsThrough, distinctTerms, distinctTerms]
  refine Finset.card_lt_card (Finset.ssubset_iff.mpr ⟨e.term, fun hmem ↦ ?_, ?_⟩)
  · -- an earlier entry of that term would make all between have it
    obtain ⟨i, x, hi, hiy, hx, hterm⟩ := mem_through.mp hmem
    obtain ⟨z, hz, hne⟩ := hfirst.resolve_left (by omega)
    have := ho.term_between (show i ≤ y - 2 by omega) (show y - 2 ≤ p - 1 by omega) hx hz he hterm
    exact hne (this.trans hterm)
  · intro t ht
    rcases Finset.mem_insert.mp ht with rfl | ht
    · exact mem_through.mpr ⟨p - 1, e, by omega, by omega, he, rfl⟩
    · obtain ⟨i, x, hi, hiy, hx, hterm⟩ := mem_through.mp ht
      exact mem_through.mpr ⟨i, x, hi, by omega, hx, hterm⟩

theorem termsThrough_pos {fs p : Nat} {e : Entry Cmd} (hlt : fs < p) (he : F[p - 1]? = some e) :
    0 < termsThrough fs F p :=
  Finset.card_pos.mpr ⟨e.term, mem_through.mpr ⟨p - 1, e, by omega, by omega, he, rfl⟩⟩

/-! ## One exchange -/

/-- The scan for `XIndex` ends beyond the snapshot, at its end or behind an entry of another term.
-/
theorem firstIndexFrom_spec {xTerm : Int} {x y : Nat} (hlt : rf.snapIndex < x)
    (h : rf.firstIndexFrom xTerm x = some y) : rf.snapIndex < y ∧ y ≤ x ∧
      (y = rf.snapIndex + 1 ∨ rf.snapIndex < y - 1 ∧
        ∃ e, rf.get (y - 1) = some e ∧ e.term ≠ xTerm) := by
  induction x with
  | zero => omega
  | succ x ih =>
    rw [firstIndexFrom] at h
    split at h
    swap
    · obtain rfl := Option.some_inj.mp h
      omega
    next hx =>
    obtain ⟨e, he, h⟩ := Option.bind_eq_some_iff.mp h
    split at h
    · obtain ⟨h1, h2, h3⟩ := ih hx h
      exact ⟨h1, by omega, h3⟩
    · next hne =>
      obtain rfl := Option.some_inj.mp h
      exact ⟨hlt, Nat.le_refl _, Or.inr ⟨hx, e, he, hne⟩⟩

variable [Labgob (Saved n Cmd)] {i : Fin n} {next : Fin n → Int}

namespace Facing

omit [Labgob (Saved n Cmd)] in
theorem singleAppend_install (h : Facing ld rf L F) (hn : ld.nextIndex = some next)
    (hlt : next i - 1 < ld.snapIndex) :
    ∃ args, ld.singleAppend i = some (some (.install args)) := by
  obtain ⟨b, rest, hb⟩ := List.exists_cons_of_ne_nil h.ld_ne
  rw [singleAppend, if_neg (not_not.mpr h.state), hn]
  simp only [Option.bind_eq_bind, Option.bind_some, if_pos hlt, getSnap, hb]
  exact ⟨_, rfl⟩

omit [Labgob (Saved n Cmd)] in
theorem singleAppend_append (h : Facing ld rf L F) (hn : ld.nextIndex = some next) {p : Nat}
    (hp : next i = p + 1) (hge : ld.snapIndex ≤ p) (hle : p ≤ L.length) :
    ∃ args, ld.singleAppend i = some (some (.append args)) ∧ args.prevLogIndex = p ∧
      args.term = ld.currentTerm ∧ Piece L args ∧ p + args.entries.length = L.length := by
  have hlen := h.leader.logLength_eq h.ld_ne
  obtain ⟨out, hout⟩ := exists_singleAppend i h.ld_ne fun _ ↦ ⟨next, hn, by omega, by omega⟩
  have hsend : ∃ args, ld.singleAppend i = some (some (.append args)) := by
    rw [singleAppend, if_neg (not_not.mpr h.state), hn] at hout ⊢
    simp only [Option.bind_eq_bind, Option.bind_some,
      if_neg (show ¬ next i - 1 < ld.snapIndex by omega)]
      at hout ⊢
    obtain ⟨prev, hprev, hout⟩ := Option.bind_eq_some_iff.mp hout
    obtain ⟨es, hes, -⟩ := Option.bind_eq_some_iff.mp hout
    rw [hprev, Option.bind_some, hes]
    exact ⟨_, rfl⟩
  obtain ⟨args, hsend⟩ := hsend
  obtain ⟨next', hn', hprev⟩ := singleAppend_next hsend
  obtain rfl := Option.some_inj.mp (hn.symm.trans hn')
  replace hprev : args.prevLogIndex = p := by
    dsimp only at hprev
    omega
  obtain ⟨hpiece, hend, -⟩ := piece_of_singleAppend (m := L.length)
    (by rw [List.take_length]; exact h.leader) (Nat.le_refl _) hsend
  exact ⟨args, hsend, hprev, (Raft.singleAppend_append hsend).2.1, hpiece, hprev ▸ hend⟩

omit [Labgob (Saved n Cmd)] in
/-- **What `stepBack` does** with the two refusals of the follower. -/
theorem stepBack (h : Facing ld rf L F) (hn : ld.nextIndex = some next)
    {args : AppendEntriesArgs n Cmd} (reply : AppendEntriesReply) (hpiece : Piece L args)
    (hlt : rf.snapIndex < args.prevLogIndex)
    (href : (rf.logLength ≤ args.prevLogIndex ∧ reply.xTerm = -1 ∧ reply.xLen = rf.logLength) ∨
      ∃ prev x, rf.get args.prevLogIndex = some prev ∧ prev.term ≠ args.prevLogTerm ∧
        rf.firstIndexFrom prev.term args.prevLogIndex = some x ∧ reply.xTerm = prev.term ∧
        reply.xIndex = x) :
    ∃ v, Backs ld.snapIndex rf.snapIndex L F args.prevLogIndex v ∧
      ld.stepBack i reply.xTerm reply.xIndex reply.xLen =
        some { ld with nextIndex := some (Function.update next i v) } := by
  have hlenL := h.leader.logLength_eq h.ld_ne
  have hlenF := h.follower.logLength_eq h.rf_ne
  have hset : ∀ v, ld.setNext i v = some { ld with nextIndex := some (Function.update next i v) } :=
    fun v ↦ by rw [setNext, hn]; rfl
  rcases href with ⟨hshort, hx, hl⟩ | ⟨e, y, he, hne, hy, hx, hidx⟩
  · have hend := hpiece.length
    refine ⟨_, .short (by omega), ?_⟩
    rw [Raft.stepBack, if_pos hx, hset, hl, hlenL, hlenF]
    congr 4
    omega
  rw [h.follower.get _ hlt] at he
  have hpos := h.follower_ordered.pos e (List.mem_of_getElem? he)
  have hne' : ∀ e', L[args.prevLogIndex - 1]? = some e' → e.term ≠ e'.term := by
    intro e' he' heq
    obtain ⟨x, hx', hterm⟩ := hpiece.prev (by omega)
    obtain rfl := Option.some_inj.mp (he'.symm.trans hx')
    exact hne (heq.trans hterm.symm)
  obtain ⟨t, ht⟩ := exists_lastIndexFrom ld e.term (N := ld.logLength - 1) (by omega)
  rw [Raft.stepBack, if_neg (by omega), hx, lastIndexOfTerm, ht, Option.bind_eq_bind,
    Option.bind_some]
  split
  · next hfound =>
    obtain ⟨q, x, hq, hget, hterm, rfl⟩ := (lastIndexFrom_spec ht).resolve_left hfound
    rw [h.leader.get q hq] at hget
    exact ⟨_, .known hlt he hne' hq hget hterm, hset _⟩
  · obtain ⟨h1, h2, h3⟩ := firstIndexFrom_spec hlt hy
    refine ⟨y, .unknown he hne' h1 h2 (h3.imp_right ?_), by rw [hset, hidx]⟩
    rintro ⟨hlt', x, hget, hterm⟩
    rw [h.follower.get _ hlt'] at hget
    exact ⟨x, hget, hterm⟩

/-- The follower's log and snapshot stay when it heeds the leader's term. -/
theorem heedLeader (h : Facing ld rf L F) : Facing ld (rf.heedLeader ld.currentTerm) L F where
  state := h.state
  term_le := by rw [heedLeader_currentTerm]; exact max_le h.term_le (le_refl _)
  ld_ne := h.ld_ne
  rf_ne := by rw [heedLeader_log]; exact h.rf_ne
  leader := h.leader
  follower := by
    refine ⟨fun k hk ↦ ?_, fun hpos b hb ↦ ?_⟩
    · rw [heedLeader_snapIndex] at hk
      rw [heedLeader_get, h.follower.get k hk]
    · rw [heedLeader_snapIndex] at hpos hb ⊢
      rw [heedLeader_get] at hb
      exact h.follower.boundary hpos b hb
  leader_ordered := h.leader_ordered
  follower_ordered := h.follower_ordered
  matching := h.matching
  starts := h.starts
  agree := by rw [heedLeader_snapIndex]; exact h.agree

/-- A request that is refused. -/
theorem refused (h : Facing ld rf L F) (hn : ld.nextIndex = some next)
    {args : AppendEntriesArgs n Cmd} {reply : AppendEntriesReply} {rf' : Raft n Cmd}
    (hterm : args.term = ld.currentTerm) (hpiece : Piece L args)
    (happ : rf.appendEntries args = some (rf', reply)) (hno : reply.success = false) :
    rf' = rf.heedLeader ld.currentTerm ∧
      ∃ v, Backs ld.snapIndex rf.snapIndex L F args.prevLogIndex v ∧
      ld.singleAppendReply i args reply =
        some { ld with nextIndex := some (Function.update next i v) } := by
  have hle : rf.currentTerm ≤ args.term := hterm ▸ h.term_le
  have hlt : rf.snapIndex < args.prevLogIndex := by
    by_contra hge
    rw [appendEntries_covered happ hle (not_lt.mp hge)] at hno
    simp at hno
  have hcur : (rf.heedLeader ld.currentTerm).currentTerm = ld.currentTerm := by
    rw [heedLeader_currentTerm, max_eq_right h.term_le]
  rcases appendEntries_spec happ with ⟨rfl, href⟩ | ⟨hok, -⟩
  swap
  · rw [hok] at hno
    simp at hno
  rw [hterm] at href
  refine ⟨by rw [hterm], ?_⟩
  have hreply : reply.term = ld.currentTerm := by
    rcases href with ⟨-, rfl⟩ | ⟨-, rfl⟩ | ⟨_, _, -, -, -, rfl⟩ <;> exact hcur
  rw [singleAppendReply, if_neg (by omega), if_neg (by rw [hterm]; simp [h.state]), if_pos hno]
  have hback := h.heedLeader.stepBack (i := i) hn reply hpiece (by simpa using hlt)
  rw [heedLeader_snapIndex] at hback
  refine hback ?_
  rcases href with ⟨hold, -⟩ | ⟨hshort, rfl⟩ | ⟨e, x, he, hne, hx, rfl⟩
  · omega
  · exact Or.inl ⟨hshort, rfl, rfl⟩
  · exact Or.inr ⟨e, x, he, hne, hx, rfl, rfl⟩

/-- **One exchange.** -/
theorem exchange_cases (h : Facing ld rf L F) (hn : ld.nextIndex = some next) {p : Nat}
    (hp : next i = p + 1) (hle : p ≤ L.length) :
    (ld.exchange rf i = some .snapshot ∧ p < ld.snapIndex) ∨
    (∃ rf', ld.exchange rf i = some (.success rf') ∧ rf'.snapIndex = rf.snapIndex ∧
      rf'.HasLog (extend F L L.length)) ∨
    ∃ v, ld.exchange rf i = some (.failure { ld with nextIndex := some (Function.update next i v) }
      (rf.heedLeader ld.currentTerm)) ∧ Backs ld.snapIndex rf.snapIndex L F p v := by
  rcases Nat.lt_or_ge p ld.snapIndex with hlt | hge
  · obtain ⟨args, hsend⟩ := h.singleAppend_install (i := i) hn (by omega)
    exact Or.inl ⟨by rw [exchange, hsend]; rfl, hlt⟩
  obtain ⟨args, hsend, rfl, hterm, hpiece, hend⟩ := h.singleAppend_append hn hp hge hle
  obtain ⟨⟨rf', reply⟩, happ⟩ := exists_appendEntries rf args
  cases hok : reply.success with
  | true =>
    have ht := took_of_success happ hok
    refine Or.inr (Or.inl ⟨rf', ?_, ht.snapIndex, ?_⟩)
    · simp [exchange, hsend, happ, hok]
    · rw [← hend]
      exact ht.hasLog h.rf_ne h.follower h.matching h.agree hpiece
  | false =>
    obtain ⟨rfl, v, hv, hreply⟩ := h.refused (i := i) hn hterm hpiece happ hok
    refine Or.inr (Or.inr ⟨v, ?_, hv⟩)
    simp [exchange, hsend, happ, hok, hreply]

omit [Labgob (Saved n Cmd)] in
/-- The leader's other fields are what they were. -/
theorem setNext (h : Facing ld rf L F) (next : Fin n → Int) :
    Facing { ld with nextIndex := some next } rf L F :=
  ⟨h.state, h.term_le, h.ld_ne, h.rf_ne, ⟨h.leader.get, h.leader.boundary⟩, h.follower,
    h.leader_ordered, h.follower_ordered, h.matching, h.starts, h.agree⟩

end Facing

/-! ## All exchanges -/

/-- The exchanges that begin with `nextIndex = x` end well, after `bound` failures at most. -/
structure EndsWell (ls fs : Nat) (L : List (Entry Cmd)) (x : Int) (bound : Nat)
    (b : BackedUp n Cmd) :
    Prop where
  /-- Few failures. -/
  count : b.failures.length ≤ bound
  /-- Each of them lowers `nextIndex`. -/
  down : (b.failures ++ [b.next]).Pairwise (· > ·)
  /-- From where it was. -/
  below : ∀ z ∈ b.failures ++ [b.next], z ≤ x
  /-- A snapshot is sent, or the follower has what the leader has. -/
  final : (b.follower = none ∧ b.next - 1 < ls) ∨ ∃ rf', b.follower = some rf' ∧
    rf'.snapIndex = fs ∧ ∀ k, fs < k → k ≤ L.length → rf'.get k = L[k - 1]?

omit [Labgob (Saved n Cmd)] in
theorem EndsWell.cons {ls fs bound : Nat} {x y : Int} {b : BackedUp n Cmd}
    (h : EndsWell ls fs L y bound b) (hlt : y < x) :
    EndsWell ls fs L x (bound + 1) { b with failures := x :: b.failures } where
  count := by simpa using h.count
  down := List.pairwise_cons.mpr ⟨fun z hz ↦ lt_of_le_of_lt (h.below z hz) hlt, h.down⟩
  below := by
    intro z hz
    rcases List.mem_cons.mp hz with rfl | hz
    · exact le_refl _
    · exact (h.below z hz).trans hlt.le
  final := h.final

theorem backup_failure {ld' rf' : Raft n Cmd} {fuel : Nat} {b : BackedUp n Cmd}
    (hn : ld.nextIndex = some next) (hex : ld.exchange rf i = some (.failure ld' rf'))
    (hb : backup i fuel ld' rf' = some b) :
    backup i (fuel + 1) ld rf = some { b with failures := next i :: b.failures } := by
  simp [backup, hn, hex, hb]

namespace Facing

theorem exchange_failure (h : Facing ld rf L F) (hn : ld.nextIndex = some next) {p : Nat}
    (hp : next i = p + 1) (hle : p ≤ L.length)
    (hfail : ∃ ld' rf', ld.exchange rf i = some (.failure ld' rf')) :
    ∃ v, ld.exchange rf i = some (.failure { ld with nextIndex := some (Function.update next i v) }
      (rf.heedLeader ld.currentTerm)) ∧ Backs ld.snapIndex rf.snapIndex L F p v := by
  obtain ⟨ld', rf', hfail⟩ := hfail
  rcases h.exchange_cases hn hp hle with ⟨hex, -⟩ | ⟨_, hex, -⟩ | hv
  · simp [hfail] at hex
  · simp [hfail] at hex
  · exact hv

theorem exchange_ne_failure (h : Facing ld rf L F) (hn : ld.nextIndex = some next) {p : Nat}
    (hp : next i = p + 1) (hle : p ≤ L.length)
    (hno : ∀ v, ¬ Backs ld.snapIndex rf.snapIndex L F p v) (ld' rf' : Raft n Cmd) :
    ld.exchange rf i ≠ some (.failure ld' rf') := by
  intro hfail
  obtain ⟨v, -, hv⟩ := h.exchange_failure hn hp hle ⟨ld', rf', hfail⟩
  exact hno v hv

/-- An exchange that does not fail is the last. -/
theorem backup_last (h : Facing ld rf L F) (hn : ld.nextIndex = some next) {p : Nat}
    (hp : next i = p + 1) (hle : p ≤ L.length)
    (hno : ∀ ld' rf', ld.exchange rf i ≠ some (.failure ld' rf')) (fuel bound : Nat) :
    ∃ b, backup i (fuel + 1) ld rf = some b ∧
      EndsWell ld.snapIndex rf.snapIndex L (next i) bound b := by
  rcases h.exchange_cases hn hp hle with ⟨hex, hlt⟩ | ⟨rf', hex, hsnap, hlog⟩ | ⟨v, hex, -⟩
  · refine ⟨⟨[], next i, none⟩, by simp [backup, hn, hex], ?_⟩
    exact ⟨Nat.zero_le _, by simp, by simp, Or.inl ⟨rfl, by dsimp only; omega⟩⟩
  · refine ⟨⟨[], next i, some rf'⟩, by simp [backup, hn, hex], ?_⟩
    refine ⟨Nat.zero_le _, by simp, by simp, Or.inr ⟨rf', rfl, hsnap, fun k hk hkL ↦ ?_⟩⟩
    rw [hlog.get k (by omega)]
    exact extend_length_getElem? h.matching (by omega)
  · exact absurd hex (hno _ _)

/-- **The exchanges from within the follower's log on**: at most one failure for every term there.
-/
theorem backup_within (D : Nat) (h : Facing ld rf L F) (hn : ld.nextIndex = some next) {p : Nat}
    (hp : next i = p + 1) (hL : p ≤ L.length) (hF : p ≤ F.length)
    (hD : termsThrough rf.snapIndex F p ≤ D) :
    ∃ b, backup i (D + 1) ld rf = some b ∧
      EndsWell ld.snapIndex rf.snapIndex L (next i) D b := by
  induction D generalizing ld rf next p with
  | zero =>
    refine h.backup_last hn hp hL (h.exchange_ne_failure hn hp hL fun v hv ↦ ?_) 0 0
    cases hv with
    | short hlt => omega
    | known hlt he => exact absurd (termsThrough_pos hlt he) (by omega)
    | unknown he _ hy hle =>
      exact absurd (termsThrough_pos (show rf.snapIndex < p by omega) he) (by omega)
  | succ D ih =>
    by_cases hfail : ∃ ld' rf', ld.exchange rf i = some (.failure ld' rf')
    swap
    · exact h.backup_last hn hp hL (fun ld' rf' hex ↦ hfail ⟨ld', rf', hex⟩) _ _
    obtain ⟨v, hex, hv⟩ := h.exchange_failure hn hp hL hfail
    -- the leader and the follower after the failure
    have h' := (h.setNext (Function.update next i v)).heedLeader
    have hnext : Function.update next i v i = v := Function.update_self ..
    have hsnap : (rf.heedLeader ld.currentTerm).snapIndex = rf.snapIndex := heedLeader_snapIndex ..
    cases hv with
    | short hlt => omega
    | @known e x q hlt he hne hq hx hterm =>
      obtain ⟨hqp, z, hz, hzx⟩ := h.known (by omega) (by omega) he hne hx hterm
      have hqL := (List.getElem?_eq_some_iff.mp hx).1
      -- at `q` the terms are the same
      have hno : ∀ v, ¬ Backs ld.snapIndex (rf.heedLeader ld.currentTerm).snapIndex L F q v := by
        intro v hv
        cases hv with
        | short hshort => omega
        | known _ he' hne' =>
          obtain rfl := Option.some_inj.mp (hz.symm.trans he')
          exact hne' x hx hzx
        | unknown he' hne' =>
          obtain rfl := Option.some_inj.mp (hz.symm.trans he')
          exact hne' x hx hzx
      obtain ⟨b, hb, hends⟩ := h'.backup_last (i := i) rfl hnext (by omega)
        (h'.exchange_ne_failure rfl hnext (by omega) hno) D D
      rw [hnext, hsnap] at hends
      exact ⟨_, backup_failure hn hex hb, hp ▸ hends.cons (by omega)⟩
    | @unknown e y he hne hy hle hfirst =>
      have hless := termsThrough_lt h.follower_ordered he hy hle hfirst
      obtain ⟨b, hb, hends⟩ := ih h' rfl (p := y - 1) (by rw [hnext]; omega) (by omega) (by omega)
        (by rw [hsnap]; omega)
      rw [hnext, hsnap] at hends
      exact ⟨_, backup_failure hn hex hb, hp ▸ hends.cons (by omega)⟩

end Facing

/-- **Fast backup converges in one round per term.**  A leader with the whole log `L` and a follower
with the whole log `F` have the logs Raft produces: positive terms that never decrease, Log
Matching, terms that begin at the same index in both, and a common part through the follower's
snapshot.  From any `nextIndex` within the leader's log, the exchange fails at most once for every
term the follower has beyond its snapshot, and once more; every failure strictly lowers `nextIndex`;
and it ends with a snapshot, because `nextIndex` is covered by the leader's, or with a follower that
has every entry of the leader. -/
theorem fast_backup (h : Facing ld rf L F) (hn : ld.nextIndex = some next) (h1 : 1 ≤ next i)
    (h2 : next i ≤ ld.logLength) :
    ∃ b, backup i (distinctTerms (F.drop rf.snapIndex) + 2) ld rf = some b ∧
      b.failures.length ≤ 1 + distinctTerms (F.drop rf.snapIndex) ∧
      (b.failures ++ [b.next]).Pairwise (· > ·) ∧
      ((b.follower = none ∧ b.next - 1 < ld.snapIndex) ∨
        ∃ rf', b.follower = some rf' ∧ rf'.snapIndex = rf.snapIndex ∧
          ∀ k, rf.snapIndex < k → k ≤ L.length → rf'.get k = L[k - 1]?) := by
  have hlen := h.leader.logLength_eq h.ld_ne
  obtain ⟨p, hp⟩ : ∃ p : Nat, next i = p + 1 := ⟨(next i - 1).toNat, by omega⟩
  have hends : ∃ b, backup i (distinctTerms (F.drop rf.snapIndex) + 1 + 1) ld rf = some b ∧
      EndsWell ld.snapIndex rf.snapIndex L (next i)
        (distinctTerms (F.drop rf.snapIndex) + 1) b := by
    have hD := termsThrough_le rf.snapIndex F
    rcases Nat.lt_or_ge F.length p with hlong | hF
    swap
    · exact h.backup_within _ hn hp (by omega) hF ((hD p).trans (Nat.le_succ _))
    -- the first request begins beyond the follower's log, and the second one at its end
    by_cases hfail : ∃ ld' rf', ld.exchange rf i = some (.failure ld' rf')
    swap
    · exact h.backup_last hn hp (by omega) (fun ld' rf' hex ↦ hfail ⟨ld', rf', hex⟩) _ _
    obtain ⟨v, hex, hv⟩ := h.exchange_failure hn hp (by omega) hfail
    have hbeyond : ∀ e, F[p - 1]? ≠ some e := fun e he ↦ by
      have := (List.getElem?_eq_some_iff.mp he).1
      omega
    cases hv with
    | known _ he => exact absurd he (hbeyond _)
    | unknown he => exact absurd he (hbeyond _)
    | short _ =>
      have h' := (h.setNext (Function.update next i (F.length + 1))).heedLeader
      have hnext : Function.update next i (F.length + 1 : Int) i = F.length + 1 :=
        Function.update_self ..
      have hsnap : (rf.heedLeader ld.currentTerm).snapIndex = rf.snapIndex :=
        heedLeader_snapIndex ..
      obtain ⟨b, hb, hends⟩ := h'.backup_within (distinctTerms (F.drop rf.snapIndex)) rfl hnext
        (by omega) (Nat.le_refl _) (by rw [hsnap]; exact hD F.length)
      rw [hnext, hsnap] at hends
      exact ⟨_, backup_failure hn hex hb, hp ▸ hends.cons (by omega)⟩
  obtain ⟨b, hb, hends⟩ := hends
  exact ⟨b, hb, by have := hends.count; omega, hends.down, hends.final⟩

/-- The log of a leader of term `4`, which was in the majority in terms `1` and `3`. -/
def ofTermFour : List (Entry Nat) :=
  [⟨1, some 10⟩, ⟨1, some 11⟩, ⟨3, some 30⟩, ⟨3, some 31⟩, ⟨4, some 40⟩]

/-- The log of a server that led in term `2`, and has been away since. -/
def ofTermTwoAlone : List (Entry Nat) := [⟨1, some 10⟩, ⟨1, some 11⟩, ⟨2, some 20⟩, ⟨2, some 21⟩]

/-- That leader, when it knows nothing of its followers. -/
def leaderOfTermFour : Raft 3 Nat := { (fresh 0 .empty : Raft 3 Nat) with
  currentTerm := 4, state := .leader, log := ⟨1, none⟩ :: ofTermFour.drop 1, snapIndex := 1
  nextIndex := some fun _ ↦ 6, matchIndex := some fun _ ↦ 0 }

/-- That server. -/
def awaySinceTermTwo : Raft 3 Nat := { (fresh 1 .empty : Raft 3 Nat) with
  currentTerm := 2, log := ⟨1, none⟩ :: ofTermTwoAlone.drop 1, snapIndex := 1 }

theorem facing_awaySinceTermTwo :
    Facing leaderOfTermFour awaySinceTermTwo ofTermFour ofTermTwoAlone where
  state := rfl
  term_le := by decide
  ld_ne := by decide
  rf_ne := by decide
  leader := by
    refine ⟨fun i hi ↦ ?_, fun _ b hb ↦ ⟨_, rfl, ?_⟩⟩
    · obtain ⟨j, rfl⟩ : ∃ j, i = j + 2 := ⟨i - 2, by have : 1 < i := hi; omega⟩
      rfl
    · rw [← Option.some_inj.mp hb]
  follower := by
    refine ⟨fun i hi ↦ ?_, fun _ b hb ↦ ⟨_, rfl, ?_⟩⟩
    · obtain ⟨j, rfl⟩ : ∃ j, i = j + 2 := ⟨i - 2, by have : 1 < i := hi; omega⟩
      rfl
    · rw [← Option.some_inj.mp hb]
  leader_ordered := ⟨by decide, by decide⟩
  follower_ordered := ⟨by decide, by decide⟩
  matching := by
    intro i e e' he he' hterm
    have hi : i < 4 := (List.getElem?_eq_some_iff.mp he).1
    have hall : ∀ i < 4, ∀ e ∈ ofTermTwoAlone[i]?, ∀ e' ∈ ofTermFour[i]?, e.term = e'.term →
        ∀ j ≤ i, ofTermTwoAlone[j]? = ofTermFour[j]? := by decide
    exact hall i hi e he e' he' hterm
  starts := by
    rintro t ⟨e, he, rfl⟩
    revert e
    decide
  agree := by decide

/-- The leader steps back from `6` to the end of the follower's log, and from there before its term
`2`, which the leader does not know; the third request is taken. -/
theorem fast_backup_awaySinceTermTwo :
    ∃ b rf', backup 1 4 leaderOfTermFour awaySinceTermTwo = some b ∧
    b.failures.length ≤ 1 + 2 ∧ (b.failures ++ [b.next]).Pairwise (· > ·) ∧ b.failures = [6, 5] ∧
    b.next = 3 ∧ b.follower = some rf' ∧ rf'.snapIndex = 1 ∧
    ∀ k, 1 < k → k ≤ 5 → rf'.get k = ofTermFour[k - 1]? := by
  obtain ⟨b, hb, hcount, hdown, hfinal⟩ :=
    fast_backup (i := 1) facing_awaySinceTermTwo rfl (by decide) (by decide)
  have hd : distinctTerms (ofTermTwoAlone.drop awaySinceTermTwo.snapIndex) = 2 := by decide
  rw [hd] at hb hcount
  have hrun : (backup 1 4 leaderOfTermFour awaySinceTermTwo).any (fun b ↦
      b.failures = [6, 5] ∧ b.next = 3 ∧ b.follower.isSome) = true := by decide +kernel
  obtain ⟨hf, hnext, hsome⟩ : b.failures = [6, 5] ∧ b.next = 3 ∧ b.follower.isSome := by
    simpa [hb] using hrun
  rcases hfinal with ⟨hnone, -⟩ | ⟨rf', hrf, hsnap, hget⟩
  · simp [hnone] at hsome
  · exact ⟨b, rf', hb, hcount, hdown, hf, hnext, hrf, hsnap, hget⟩

end Raft

end DistLabs
