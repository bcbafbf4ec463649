import Mathlib.Algebra.GroupWithZero.Nat
import Mathlib.Data.List.Basic
import Mathlib.Data.List.Induction

/-!
# Lists that grow and lists that are written to

An element of a list to which one was added, or in which one was replaced, is an old one or the new
one, and a sum over the list changes by what the new one adds.  What one element of a list sees to
when it is folded over, and no other one undoes, is so in the end.
-/

set_option autoImplicit false

variable {α : Type*}

theorem List.getElem?_concat_cases {l : List α} {x z : α} {i : Nat}
    (h : (l ++ [x])[i]? = some z) : l[i]? = some z ∨ i = l.length ∧ z = x := by
  rcases Nat.lt_trichotomy i l.length with hlt | rfl | hgt
  · rw [List.getElem?_append_left hlt] at h
    exact Or.inl h
  · rw [List.getElem?_concat_length, Option.some_inj] at h
    exact Or.inr ⟨rfl, h.symm⟩
  · rw [List.getElem?_eq_none (by simp; omega)] at h
    simp at h

theorem List.getElem?_set_cases {l : List α} {y z : α} {i j : Nat}
    (h : (l.set i y)[j]? = some z) : (i = j ∧ z = y) ∨ (i ≠ j ∧ l[j]? = some z) := by
  by_cases hij : i = j
  · subst hij
    have hlt : i < l.length := by simpa using (List.getElem?_eq_some_iff.mp h).1
    rw [List.getElem?_set_self hlt, Option.some_inj] at h
    exact Or.inl ⟨rfl, h.symm⟩
  · rw [List.getElem?_set_ne hij] at h
    exact Or.inr ⟨hij, h⟩

theorem List.mem_modify_cases {l : List α} {k : Nat} {f : α → α} {z : α} (h : z ∈ l.modify k f) :
    z ∈ l ∨ ∃ x, l[k]? = some x ∧ z = f x := by
  obtain ⟨i, hi⟩ := List.mem_iff_getElem?.mp h
  rw [List.getElem?_modify, Option.map_eq_map, Option.map_eq_some_iff] at hi
  obtain ⟨x, hget, rfl⟩ := hi
  split
  · next hik => exact Or.inr ⟨x, hik ▸ hget, rfl⟩
  · exact Or.inl (List.mem_of_getElem? hget)

/-- A beginning of a list, and some more of it. -/
theorem List.IsPrefix.append_take_drop {l l' : List α} (h : l <+: l') (k : Nat) :
    l ++ (l'.drop l.length).take k <+: l' := by
  obtain ⟨rest, rfl⟩ := h
  rw [List.drop_left, List.prefix_append_right_inj]
  exact List.take_prefix _ _

theorem List.foldl_post {β : Type*} {step : β → α → β} {P : β → Prop} {l : List α} {x : α}
    (hpost : ∀ b, P (step b x)) (hkeep : ∀ b, ∀ y ∈ l, y ≠ x → P b → P (step b y)) (hx : x ∈ l)
    (b : β) : P (l.foldl step b) := by
  induction l using List.reverseRecOn with
  | nil => simp at hx
  | append_singleton l y ih =>
    rw [List.foldl_concat]
    by_cases hxy : y = x
    · exact hxy ▸ hpost _
    · refine hkeep _ y (by simp) hxy (ih (fun b y hy ↦ hkeep b y (by simp [hy])) ?_)
      simpa [Ne.symm hxy] using hx

theorem List.exists_bound (l : List α) (f : α → Nat) : ∃ B, ∀ x ∈ l, f x ≤ B := by
  induction l with
  | nil => exact ⟨0, by simp⟩
  | cons a l ih =>
    obtain ⟨B, hB⟩ := ih
    refine ⟨max (f a) B, fun x hx ↦ ?_⟩
    rcases List.mem_cons.mp hx with rfl | hmem
    · exact Nat.le_max_left _ _
    · exact Nat.le_trans (hB x hmem) (Nat.le_max_right _ _)

theorem List.sum_map_set (f : α → Nat) {l : List α} {i : Nat} {x : α} (y : α)
    (h : l[i]? = some x) : ((l.set i y).map f).sum + f x = (l.map f).sum + f y := by
  induction l generalizing i with
  | nil => simp at h
  | cons z l ih =>
    cases i with
    | zero =>
      rw [List.getElem?_cons_zero, Option.some_inj] at h
      simp only [h, List.set_cons_zero, List.map_cons, List.sum_cons]
      omega
    | succ i =>
      rw [List.getElem?_cons_succ] at h
      have := ih h
      simp only [List.set_cons_succ, List.map_cons, List.sum_cons]
      omega
