import Mathlib.Data.List.Nodup
import Mathlib.Logic.Function.Basic

/-!
# Doubly linked lists, and taking a node out for a while

The pointers of a heap: for every address the next and the previous one.  `Chain xs` says that the
addresses `xs` are linked, in this order, in both directions.

A node is taken out by making its neighbours point past it (`remove`).  It still knows its
neighbours, so it can be put back (`restore`), and if nothing else has changed the heap is then what
it was (`restore_remove`).  This is the trick behind backtracking searches that keep the open
choices in a linked list.
-/

set_option autoImplicit false

/-- The pointers of a heap; `none` is the null pointer. -/
@[ext] structure Links where
  /-- The next address. -/
  next : ℕ → Option ℕ
  /-- The previous address. -/
  prev : ℕ → Option ℕ

namespace Links

/-- Write a next pointer. -/
def setNext (l : Links) (a : ℕ) (p : Option ℕ) : Links :=
  { l with next := Function.update l.next a p }

/-- Write a previous pointer. -/
def setPrev (l : Links) (a : ℕ) (p : Option ℕ) : Links :=
  { l with prev := Function.update l.prev a p }

@[simp] theorem setNext_next (l : Links) (a : ℕ) (p : Option ℕ) :
    (l.setNext a p).next = Function.update l.next a p := rfl

@[simp] theorem setNext_prev (l : Links) (a : ℕ) (p : Option ℕ) :
    (l.setNext a p).prev = l.prev := rfl

@[simp] theorem setPrev_next (l : Links) (a : ℕ) (p : Option ℕ) :
    (l.setPrev a p).next = l.next := rfl

@[simp] theorem setPrev_prev (l : Links) (a : ℕ) (p : Option ℕ) :
    (l.setPrev a p).prev = Function.update l.prev a p := rfl

/-- The addresses are linked in this order, and the last one is the end. -/
def Chain (l : Links) : List ℕ → Prop
  | [] => True
  | [a] => l.next a = none
  | a :: b :: rest => l.next a = some b ∧ l.prev b = some a ∧ Chain l (b :: rest)

variable {l l' : Links} {xs : List ℕ} {a p x : ℕ}

/-- Only the pointers between the addresses matter. -/
theorem Chain.congr (h : l.Chain xs) (hnext : ∀ y ∈ xs, l'.next y = l.next y)
    (hprev : ∀ y ∈ xs.tail, l'.prev y = l.prev y) : l'.Chain xs := by
  induction xs with
  | nil => trivial
  | cons a rest ih =>
    cases rest with
    | nil => exact (hnext a (by simp)).trans h
    | cons b rest =>
      refine ⟨(hnext a (by simp)).trans h.1, (hprev b (by simp)).trans h.2.1, ?_⟩
      exact ih h.2.2 (fun y hy ↦ hnext y (List.mem_cons_of_mem _ hy))
        fun y hy ↦ hprev y (List.mem_of_mem_tail hy)

theorem Chain.tail (h : l.Chain (a :: xs)) : l.Chain xs := by
  cases xs with
  | nil => trivial
  | cons b rest => exact h.2.2

theorem Chain.next_head (h : l.Chain (a :: xs)) : l.next a = xs.head? := by
  cases xs with
  | nil => exact h
  | cons b rest => exact h.1

/-- What comes after an address in the list is what it points to. -/
theorem Chain.next_eq (before : List ℕ) {after : List ℕ} (h : l.Chain (before ++ a :: after)) :
    l.next a = after.head? := by
  induction before with
  | nil => exact h.next_head
  | cons b before ih => exact ih h.tail

/-- And the one before it is what it points back to. -/
theorem Chain.prev_eq (before : List ℕ) {after : List ℕ} (h : l.Chain (before ++ p :: a :: after)) :
    l.prev a = some p := by
  induction before with
  | nil => exact h.2.1
  | cons b before ih => exact ih h.tail

/-! ## Taking a node out -/

/-- The neighbours of `x` point past it. -/
def remove (l : Links) (x : ℕ) : Links :=
  let l₁ := match l.prev x with
    | some p => l.setNext p (l.next x)
    | none => l
  match l.next x with
    | some s => l₁.setPrev s (l.prev x)
    | none => l₁

/-- The neighbours of `x` point to it again. -/
def restore (l : Links) (x : ℕ) : Links :=
  let l₁ := match l.prev x with
    | some p => l.setNext p (some x)
    | none => l
  match l.next x with
    | some s => l₁.setPrev s (some x)
    | none => l₁

theorem remove_next (hp : l.prev x = some p) :
    (l.remove x).next = Function.update l.next p (l.next x) := by
  simp only [remove, hp]
  split <;> rfl

theorem remove_prev_of_some {s : ℕ} (hs : l.next x = some s) :
    (l.remove x).prev = Function.update l.prev s (l.prev x) := by
  simp only [remove, hs]
  split <;> rfl

theorem remove_prev_of_none (hs : l.next x = none) : (l.remove x).prev = l.prev := by
  simp only [remove, hs]
  split <;> rfl

/-- **The rest stays linked.** -/
theorem Chain.remove {before after : List ℕ} (h : l.Chain (before ++ p :: x :: after))
    (hnd : (before ++ p :: x :: after).Nodup) : (l.remove x).Chain (before ++ p :: after) := by
  have hp : l.prev x = some p := h.prev_eq before
  have hnext := remove_next (l := l) (x := x) hp
  -- the part behind `p` has lost nothing but its way back to `x`
  have hbase : ∀ {ys : List ℕ}, l.Chain (p :: x :: ys) → (p :: x :: ys).Nodup →
      (l.remove x).Chain (p :: ys) := by
    intro ys hc hn
    have hs : l.next x = ys.head? := hc.tail.next_head
    cases ys with
    | nil => simp [Chain, hnext, hs]
    | cons s rest =>
      have hprev := remove_prev_of_some (l := l) (x := x) hs
      simp only [List.nodup_cons, List.mem_cons, not_or] at hn
      refine ⟨by simp [hnext, hs], by simp [hprev, hp], hc.tail.tail.congr (fun y hy ↦ ?_)
        fun y hy ↦ ?_⟩
      · rw [hnext, Function.update_of_ne]
        rintro rfl
        rcases List.mem_cons.mp hy with rfl | hmem
        · exact hn.1.2.1 rfl
        · exact hn.1.2.2 hmem
      · rw [hprev, Function.update_of_ne]
        rintro rfl
        exact hn.2.2.1 hy
  -- nothing changes before `p`
  have hs : l.next x = after.head? := Chain.next_eq (before ++ [p]) (by simpa using h)
  have hprev : ∀ y ∈ before ++ [p], (l.remove x).prev y = l.prev y := by
    intro y hy
    cases after with
    | nil => rw [remove_prev_of_none hs]
    | cons s rest =>
      rw [remove_prev_of_some hs, Function.update_of_ne]
      rintro rfl
      have hnd' : (before ++ [p] ++ x :: y :: rest).Nodup := by simpa using hnd
      exact (List.nodup_append.mp hnd').2.2 y hy y (by simp) rfl
  clear hs
  induction before with
  | nil => exact hbase h hnd
  | cons b before ih =>
    have hrest := ih h.tail (List.nodup_cons.mp hnd).2 fun y hy ↦ hprev y (by simp at hy ⊢; tauto)
    have hbp : b ≠ p := by
      rintro rfl
      simp at hnd
    cases before with
    | nil => exact ⟨by rw [hnext, Function.update_of_ne hbp, h.1],
        by rw [hprev p (by simp), h.2.1], hrest⟩
    | cons c before => exact ⟨by rw [hnext, Function.update_of_ne hbp, h.1],
        by rw [hprev c (by simp), h.2.1], hrest⟩

/-- The node still knows what comes after it. -/
theorem remove_next_self {before after : List ℕ} (h : l.Chain (before ++ p :: x :: after))
    (hnd : (before ++ p :: x :: after).Nodup) : (l.remove x).next x = l.next x := by
  rw [remove_next (h.prev_eq before), Function.update_of_ne]
  rintro rfl
  exact (List.nodup_cons.mp (List.nodup_append.mp hnd).2.1).1 (by simp)

/-- And what comes before it. -/
theorem remove_prev_self {before after : List ℕ} (h : l.Chain (before ++ p :: x :: after))
    (hnd : (before ++ p :: x :: after).Nodup) : (l.remove x).prev x = some p := by
  have hs : l.next x = after.head? := Chain.next_eq (before ++ [p]) (by simpa using h)
  cases after with
  | nil => rw [remove_prev_of_none hs, h.prev_eq before]
  | cons s rest =>
    rw [remove_prev_of_some hs, Function.update_of_ne, h.prev_eq before]
    rintro rfl
    have := (List.nodup_cons.mp (List.nodup_append.mp hnd).2.1).2
    simp at this

/-- **What was taken out can be put back.** -/
theorem restore_remove {before after : List ℕ} (h : l.Chain (before ++ p :: x :: after))
    (hnd : (before ++ p :: x :: after).Nodup) : (l.remove x).restore x = l := by
  have hp : l.prev x = some p := h.prev_eq before
  have hpx : l.next p = some x := h.next_eq before
  have hs : l.next x = after.head? := Chain.next_eq (before ++ [p]) (by simpa using h)
  have hnext := remove_next (l := l) (x := x) hp
  have hnx := remove_next_self h hnd
  have hpx' := remove_prev_self h hnd
  cases after with
  | nil =>
    have hprev := remove_prev_of_none (l := l) (x := x) hs
    rw [List.head?_nil] at hs
    ext1
    · simp [restore, hnx, hs, hprev, hp, hnext, ← hpx]
    · simp [restore, hnx, hs, hprev, hp]
  | cons s rest =>
    have hprev := remove_prev_of_some (l := l) (x := x) hs
    rw [List.head?_cons] at hs
    have hsx : l.prev s = some x := Chain.prev_eq (before ++ [p]) (by simpa using h)
    ext1
    · simp [restore, hnx, hs, hpx', hnext, ← hpx]
    · simp [restore, hnx, hs, hpx', hprev, ← hsx]

end Links
