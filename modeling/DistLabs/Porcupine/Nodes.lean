import DistLabs.Porcupine.Search

/-!
# The linked list of a history

What `makeLinkedEntries`, `lift` and `unlift` do to the nodes.  The list holds the entries of the
history in order, every call knows its return, and these fields never change (`SameFields`).  Taking
an operation out leaves the list of the entries of the others (`lift_spec`), and putting it back
right away gives the nodes as they were.
-/

set_option autoImplicit false

namespace DistLabs.Porcupine

variable {S I O : Type} {history : List (Entry I O)}

namespace Heap

/-- The fields of the nodes, other than their place in the list, are the same. -/
structure SameFields (h h' : Heap I O) : Prop where
  /-- The values. -/
  value : h'.value = h.value
  /-- The returns. -/
  matching : h'.matching = h.matching
  /-- The operations. -/
  id : h'.id = h.id

theorem SameFields.rfl {h : Heap I O} : SameFields h h := ⟨Eq.refl _, Eq.refl _, Eq.refl _⟩

theorem insertBefore_sameFields (h : Heap I O) (a : ℕ) (mark : Option ℕ) :
    SameFields h (h.insertBefore a mark) := by
  cases mark with
  | none => exact .rfl
  | some m =>
    rw [insertBefore]
    dsimp only
    split <;> exact ⟨rfl, rfl, rfl⟩

section Push

variable (h : Heap I O) (a : ℕ) (value : Option (EntryKind I O)) (matching mark : Option ℕ)
  (id : Int)

@[simp] theorem push_value : ((h.alloc a value matching id).insertBefore a mark).value =
    Function.update h.value a value :=
  (insertBefore_sameFields ..).value

@[simp] theorem push_matching : ((h.alloc a value matching id).insertBefore a mark).matching =
    Function.update h.matching a matching :=
  (insertBefore_sameFields ..).matching

@[simp] theorem push_id : ((h.alloc a value matching id).insertBefore a mark).id =
    Function.update h.id a id :=
  (insertBefore_sameFields ..).id

end Push

/-- **A new node in front** of a list whose first node has nothing before it. -/
theorem chain_push {h : Heap I O} {xs : List ℕ} {a : ℕ} (hc : h.Chain xs) (hnd : (a :: xs).Nodup)
    (hfirst : ∀ x ∈ xs.head?, h.prev x = none) (value : Option (EntryKind I O))
    (matching : Option ℕ) (id : Int) :
    ((h.alloc a value matching id).insertBefore a xs.head?).Chain (a :: xs) ∧
      ((h.alloc a value matching id).insertBefore a xs.head?).prev a = none := by
  obtain ⟨ha, hnd⟩ := List.nodup_cons.mp hnd
  cases xs with
  | nil => simp [insertBefore, alloc, Links.Chain]
  | cons b rest =>
    have hab : b ≠ a := fun hba ↦ ha (by simp [hba])
    have hb : (h.alloc a value matching id).prev b = none := by
      simp [alloc, Function.update_of_ne hab, hfirst b (by simp)]
    rw [List.head?_cons, insertBefore]
    simp only [hb]
    refine ⟨⟨by simp, by simp, hc.congr (fun y hy ↦ ?_) fun y hy ↦ ?_⟩, ?_⟩
    · have hya : y ≠ a := fun h ↦ ha (h ▸ hy)
      simp [alloc, Function.update_of_ne hya]
    · have hya : y ≠ a := fun h ↦ ha (h ▸ List.mem_of_mem_tail hy)
      have hyb : y ≠ b := fun h ↦ (List.nodup_cons.mp hnd).1 (h ▸ hy)
      simp [alloc, Function.update_of_ne hya, Function.update_of_ne hyb]
    · simp [alloc, Function.update_of_ne hab.symm]

/-- The loop of `length`. -/
theorem length_chain {h : Heap I O} {xs : List ℕ} (hc : h.Chain xs) :
    h.length xs.length xs.head? = xs.length := by
  induction xs with
  | nil => rfl
  | cons a rest ih =>
    rw [List.head?_cons, List.length_cons, length, hc.next_head, ih hc.tail]

/-! ## Taking an operation out -/

variable {h : Heap I O} {c r p q s : ℕ}

/-- `lift` takes out the call and then the return. -/
theorem lift_eq (hp : h.prev c = some p) (hs : h.next c = some s) (hm : h.matching c = some r)
    (hq : (h.toLinks.remove c).prev r = some q) :
    h.lift c = some { h with toLinks := (h.toLinks.remove c).remove r } := by
  -- a write of the value that is there changes nothing
  have hself : ∀ (f : ℕ → Option ℕ) (a b : ℕ), Function.update f a (f b) b = f b := by
    intro f a b
    rcases eq_or_ne b a with rfl | hne
    · exact Function.update_self ..
    · exact Function.update_of_ne hne ..
  have hnext : Function.update h.next p (some s) c = some s := by rw [← hs, hself]
  have hfirst : h.toLinks.remove c = (h.setNext p (some s)).setPrev s (some p) := by
    simp only [Links.remove, hp, hs]
  simp only [lift, hp, hs, hm, Option.bind_eq_bind, Option.bind_some, Links.setNext_next, hnext,
    Links.setNext_prev]
  rw [← hfirst, hq, Option.bind_some]
  generalize h.toLinks.remove c = l at hq ⊢
  rw [hself, Links.remove, hq]
  cases l.next r <;> rfl

/-- `unlift` puts back the return and then the call. -/
theorem unlift_eq (hm : h.matching c = some r) (hq : h.prev r = some q) (hqr : r ≠ q)
    (hp : (h.toLinks.restore r).prev c = some p) (hpc : c ≠ p)
    (hs : (h.toLinks.restore r).next c = some s) :
    h.unlift c = some { h with toLinks := (h.toLinks.restore r).restore c } := by
  have hnext : Function.update (h.toLinks.restore r).next p (some c) c = some s := by
    rw [Function.update_of_ne hpc, hs]
  have hunlift : h.unlift c = some { h with
      toLinks := ((h.toLinks.restore r).setNext p (some c)).setPrev s (some c) } := by
    simp only [unlift, hm, hq, Option.bind_eq_bind, Option.bind_some, Links.setNext_next,
      Function.update_of_ne hqr]
    simp only [Links.restore, hq] at hp hnext ⊢
    cases hr : h.next r <;> simp only [hr] at hp hnext ⊢ <;>
      rw [hp, Option.bind_some, hnext] <;> rfl
  rw [hunlift]
  generalize h.toLinks.restore r = l at hp hs ⊢
  simp only [Links.restore, hp, hs]

/-- **Taking an operation out** leaves the others linked, changes no other field, and can be
undone. -/
theorem lift_spec {before mid after : List ℕ} (hne : before ≠ [])
    (hc : h.Chain (before ++ c :: (mid ++ r :: after)))
    (hnd : (before ++ c :: (mid ++ r :: after)).Nodup) (hm : h.matching c = some r) :
    ∃ h', h.lift c = some h' ∧ h'.Chain (before ++ (mid ++ after)) ∧ SameFields h h' ∧
      h'.unlift c = some h := by
  obtain ⟨before, p, rfl⟩ := (List.eq_nil_or_concat before).resolve_left hne
  obtain ⟨mid', q, hmid⟩ := (List.eq_nil_or_concat (p :: mid)).resolve_left (by simp)
  rw [List.concat_eq_append, List.append_assoc, List.singleton_append] at hc hnd
  -- first the call goes, then the return, whose left neighbour may be that of the call
  have hc₁ := hc.remove hnd
  have hnd₁ := hnd.sublist (((List.sublist_cons_self c _).cons_cons p).append_left before)
  have hsplit : ∀ ys, before ++ p :: (mid ++ ys) = before ++ mid' ++ q :: ys := by
    intro ys
    rw [← List.cons_append, hmid]
    simp
  rw [hsplit] at hc₁ hnd₁
  have hp : (h.toLinks.remove c).prev c = some p := Links.remove_prev_self hc hnd
  obtain ⟨s, hs⟩ : ∃ s, h.next c = some s := by
    rw [Links.Chain.next_eq (before ++ [p]) (by simpa using hc)]
    cases mid <;> simp
  have hpc : c ≠ p := by
    rintro rfl
    exact (List.nodup_cons.mp (List.nodup_append.mp hnd).2.1).1 (by simp)
  have hqr : r ≠ q := by
    rintro rfl
    exact (List.nodup_cons.mp (List.nodup_append.mp hnd₁).2.1).1 (by simp)
  have hback := Links.restore_remove hc₁ hnd₁
  refine ⟨_, lift_eq (hc.prev_eq before) hs hm (hc₁.prev_eq _), ?_, ⟨rfl, rfl, rfl⟩, ?_⟩
  · have hc₂ := hc₁.remove hnd₁
    rw [← hsplit] at hc₂
    simpa using hc₂
  · have hundo := unlift_eq (h := { h with toLinks := (h.toLinks.remove c).remove r }) hm
      (Links.remove_prev_self hc₁ hnd₁) hqr (by rw [hback]; exact hp) hpc
      (by rw [hback, Links.remove_next_self hc hnd]; exact hs)
    rwa [hback, Links.restore_remove hc hnd] at hundo

end Heap

/-! ## Building the list -/

/-- The nodes from position `i` on are linked in order, and nothing stands before them. -/
theorem linkFrom_chain (i : ℕ) (es : List (Entry I O)) :
    (linkFrom i es).1.Chain (List.range' i es.length) ∧
      (linkFrom i es).2.1 = (List.range' i es.length).head? ∧
      ∀ x ∈ (List.range' i es.length).head?, (linkFrom i es).1.prev x = none := by
  induction es generalizing i with
  | nil => simp [linkFrom, Links.Chain]
  | cons e rest ih =>
    obtain ⟨hc, hroot, hfirst⟩ := ih (i + 1)
    have hnd : (i :: List.range' (i + 1) rest.length).Nodup :=
      List.nodup_range' (s := i) (n := rest.length + 1)
    have hpush := fun v m id ↦ Heap.chain_push hc hnd hfirst v m id
    have hhead : (List.range' i (rest.length + 1)).head? = some i := rfl
    rw [linkFrom, List.length_cons, hhead]
    dsimp only
    rw [hroot]
    split
    · obtain ⟨h1, h2⟩ := hpush (some e.kind) none e.id
      exact ⟨h1, rfl, by simpa using h2⟩
    · obtain ⟨h1, h2⟩ := hpush (some e.kind) ((linkFrom (i + 1) rest).2.2 e.id) e.id
      exact ⟨h1, rfl, by simpa using h2⟩

/-- The fields of the node at position `i + k`. -/
theorem linkFrom_fields (i : ℕ) (es : List (Entry I O)) {k : ℕ} {e : Entry I O}
    (hk : es[k]? = some e) :
    (linkFrom i es).1.value (i + k) = some e.kind ∧ (linkFrom i es).1.id (i + k) = e.id ∧
      (linkFrom i es).1.matching (i + k) = match e.kind with
        | .return _ => none
        | .call _ => (linkFrom (i + k + 1) (es.drop (k + 1))).2.2 e.id := by
  induction es generalizing i k with
  | nil => simp at hk
  | cons x rest ih =>
    cases k with
    | zero =>
      obtain rfl : x = e := by simpa using hk
      rw [linkFrom]
      dsimp only
      split <;> next hx => simp [hx]
    | succ k =>
      have hold := ih (i + 1) (k := k) (by simpa using hk)
      have hne : i + (k + 1) ≠ i := by omega
      rw [show i + 1 + k = i + (k + 1) by omega] at hold
      rw [linkFrom, List.drop_succ_cons]
      dsimp only
      split <;> simpa [Function.update_of_ne hne] using hold

/-- The return of an operation is the first one from position `i` on. -/
theorem linkFrom_returns (i : ℕ) (es : List (Entry I O)) (id : ℕ)
    (h : returnPos es id < es.length) :
    (linkFrom i es).2.2 id = some (i + returnPos es id) := by
  induction es generalizing i with
  | nil => simp at h
  | cons e rest ih =>
    rw [returnPos, List.findIdx_cons] at h ⊢
    rw [linkFrom]
    dsimp only
    split
    · next hx =>
      by_cases hid : e.id = id
      · simp [hid, Entry.isCall, hx]
      · have hb : (e.id == id && !e.isCall) = false := by simp [hid]
        rw [hb, cond_false] at h ⊢
        change Function.update (linkFrom (i + 1) rest).2.2 e.id (some i) id = _
        rw [Function.update_of_ne (Ne.symm hid), ih (i + 1) (Nat.lt_of_succ_lt_succ h), returnPos]
        congr 1
        omega
    · next hx =>
      have hb : (e.id == id && !e.isCall) = false := by simp [Entry.isCall, hx]
      rw [hb, cond_false] at h ⊢
      rw [ih (i + 1) (Nat.lt_of_succ_lt_succ h), returnPos]
      congr 1
      omega

/-! ## The nodes of a matched history -/

/-- The fields of the nodes are those of the history. -/
structure Fields (history : List (Entry I O)) (h : Heap I O) : Prop where
  /-- The values. -/
  value : ∀ p < history.length, h.value p = (history[p]?).map Entry.kind
  /-- The operations. -/
  id : ∀ p < history.length, h.id p = idAt history p
  /-- A call knows its return. -/
  call : ∀ i < size history, h.matching (callPos history i) = some (returnPos history i)
  /-- A return has none. -/
  return_none : ∀ i < size history, h.matching (returnPos history i) = none

theorem Fields.congr {h h' : Heap I O} (hf : Fields history h) (hs : Heap.SameFields h h') :
    Fields history h' := by
  obtain ⟨h1, h2, h3⟩ := hs
  exact ⟨h1 ▸ hf.value, h3 ▸ hf.id, h2 ▸ hf.call, h2 ▸ hf.return_none⟩

theorem Matched.fields (hm : Matched history) : Fields history (linkFrom 0 history).1 := by
  have hget : ∀ {p e}, history[p]? = some e → _ := fun hp ↦ linkFrom_fields 0 history hp
  refine ⟨fun p hp ↦ ?_, fun p hp ↦ ?_, fun i hi ↦ ?_, fun i hi ↦ ?_⟩
  · have he := List.getElem?_eq_getElem hp
    have := (hget he).1
    rw [Nat.zero_add] at this
    rw [this, he]
    rfl
  · have he := List.getElem?_eq_getElem hp
    have := (hget he).2.1
    rw [Nat.zero_add] at this
    rw [this, idAt, he]
    rfl
  · obtain ⟨e, input, he, hid, hk⟩ := hm.call_spec hi
    have := (hget he).2.2
    rw [Nat.zero_add, hk] at this
    rw [this, hid]
    -- the first return of the operation comes after its call
    have hsplit := List.take_append_drop (callPos history i + 1) history
    have hret : returnPos history i = callPos history i + 1 +
        returnPos (history.drop (callPos history i + 1)) i := by
      have happ : returnPos (history.take (callPos history i + 1) ++
          history.drop (callPos history i + 1)) i = _ := List.findIdx_append
      rw [hsplit] at happ
      have hlt := hm.call_lt i hi
      have hlen := hm.return_lt i hi
      split at happ
      · next hin =>
        rw [List.length_take] at hin
        omega
      · rw [List.length_take, min_eq_left (by omega)] at happ
        rw [happ, returnPos]
        omega
    have hlen := hm.return_lt i hi
    rw [linkFrom_returns _ _ _ (by rw [List.length_drop]; omega), ← hret]
  · obtain ⟨e, output, he, hid, hk⟩ := hm.return_spec hi
    have := (hget he).2.2
    rwa [Nat.zero_add, hk] at this

/-! ## The start of the search -/

namespace Loop

variable (model : Model S I O)

theorem start_heap (history : List (Entry I O)) :
    (start model history).heap.Chain (history.length :: List.range history.length) ∧
      Heap.SameFields ((linkFrom 0 history).1.alloc history.length none none (-1))
        (start model history).heap ∧
      (start model history).entry = (List.range history.length).head? := by
  obtain ⟨hc, hroot, hfirst⟩ := linkFrom_chain 0 history
  rw [← List.range_eq_range'] at hc hroot hfirst
  have hnd : (history.length :: List.range history.length).Nodup := by
    simp [List.nodup_range]
  have hheap : (start model history).heap =
      ((linkFrom 0 history).1.alloc history.length none none (-1)).insertBefore history.length
        (List.range history.length).head? := by rw [← hroot]; rfl
  rw [hheap]
  exact ⟨(Heap.chain_push hc hnd hfirst none none (-1)).1, Heap.insertBefore_sameFields ..,
    hroot⟩

theorem start_size (history : List (Entry I O)) :
    (start model history).linearized = newBitset (size history) ∧
      (start model history).longest = List.replicate (size history) none := by
  obtain ⟨hc, hroot, -⟩ := linkFrom_chain 0 history
  have hlen := Heap.length_chain hc
  rw [← hroot, List.length_range'] at hlen
  constructor
  · exact congrArg (fun n ↦ newBitset (n / 2)) hlen
  · exact congrArg (fun n ↦ List.replicate (n / 2) none) hlen

theorem start_fields (hm : Matched history) : Fields history (start model history).heap := by
  obtain ⟨-, hsame, -⟩ := start_heap model history
  have hf := hm.fields
  have hne : ∀ {p}, p < history.length → p ≠ history.length := fun hp ↦ hp.ne
  refine Fields.congr ⟨fun p hp ↦ ?_, fun p hp ↦ ?_, fun i hi ↦ ?_, fun i hi ↦ ?_⟩ hsame
  · rw [← hf.value p hp]
    exact Function.update_of_ne (hne hp) ..
  · rw [← hf.id p hp]
    exact Function.update_of_ne (hne hp) ..
  · rw [← hf.call i hi]
    exact Function.update_of_ne (hne ((hm.call_lt i hi).trans (hm.return_lt i hi))) ..
  · rw [← hf.return_none i hi]
    exact Function.update_of_ne (hne (hm.return_lt i hi)) ..

end Loop

end DistLabs.Porcupine
