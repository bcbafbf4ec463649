import Mathlib.Logic.Function.Basic
import Mathlib.Data.List.Basic

/-!
# A directory with open files

A name in a directory leads to a file, and a program that has opened a file goes on reading and
writing *the file*, whatever happens to the name.  Files are numbers here: `dir` says where the
names lead and `data` what is in the files.

* `create` opens the file a name leads to and empties it, or makes a new one;
* `writeAt` overwrites from an offset on, and fills a gap before the offset with zeros;
* `rename` moves a name; a file that loses its name stays where it is for those who have it open.

No two names lead to one file, which is part of the structure.

`Frame` says what an operation leaves alone: everything but the files that certain names lead to.
`contents` is the view of somebody who opens the files anew.
-/

set_option autoImplicit false

universe u

/-- A directory and the files. -/
structure FileSystem (Name : Type u) where
  /-- The file a name leads to. -/
  dir : Name → Option Nat
  /-- What is in a file. -/
  data : Nat → List UInt8
  /-- The first number that is no file yet. -/
  next : Nat
  /-- Names lead to files that are there. -/
  dir_lt : ∀ name i, dir name = some i → i < next
  /-- Different names lead to different files. -/
  dir_inj : ∀ name name' i, dir name = some i → dir name' = some i → name = name'

namespace FileSystem

variable {Name : Type u} {fs fs' : FileSystem Name} {name old new : Name} {i : Nat}

/-! ## Operations -/

/-- An empty directory. -/
def empty : FileSystem Name := ⟨fun _ ↦ none, fun _ ↦ [], 0, by simp, by simp⟩

/-- What is in the file a name leads to. -/
def contents (fs : FileSystem Name) (name : Name) : Option (List UInt8) := (fs.dir name).map fs.data

/-- `bytes` with `new` from an offset on. -/
def splice (bytes : List UInt8) (offset : Nat) (new : List UInt8) : List UInt8 :=
  bytes.take offset ++ List.replicate (offset - bytes.length) 0 ++ new ++
    bytes.drop (offset + new.length)

/-- Write to a file that is open. -/
def writeAt (fs : FileSystem Name) (i offset : Nat) (bytes : List UInt8) : FileSystem Name :=
  { fs with data := Function.update fs.data i (splice (fs.data i) offset bytes) }

/-- The file that `create` opens. -/
def file (fs : FileSystem Name) (name : Name) : Nat := (fs.dir name).getD fs.next

theorem file_of_dir (h : fs.dir name = some i) : fs.file name = i := by
  rw [file, h, Option.getD_some]

theorem file_of_none (h : fs.dir name = none) : fs.file name = fs.next := by
  rw [file, h, Option.getD_none]

/-- `create` opens no file that only other names lead to. -/
theorem file_ne (hi : i < fs.next) (h : fs.dir name ≠ some i) : fs.file name ≠ i := by
  cases hname : fs.dir name with
  | none =>
    rw [file_of_none hname]
    omega
  | some j =>
    rw [file_of_dir hname]
    rintro rfl
    exact h hname

section Names

variable [DecidableEq Name]

/-- Open the file a name leads to and empty it, or make a new one. -/
def create (fs : FileSystem Name) (name : Name) : FileSystem Name where
  dir := Function.update fs.dir name (some (fs.file name))
  data := Function.update fs.data (fs.file name) []
  next := max fs.next (fs.file name + 1)
  dir_lt other i h := by
    by_cases heq : other = name
    · rw [heq, Function.update_self, Option.some_inj] at h
      omega
    · rw [Function.update_of_ne heq] at h
      have := fs.dir_lt other i h
      omega
  dir_inj := by
    -- no other name leads to the file that is opened
    have hother : ∀ other i, other ≠ name → fs.dir other = some i → fs.file name ≠ i :=
      fun other i hne h ↦ file_ne (fs.dir_lt other i h) fun h' ↦ hne (fs.dir_inj other name i h h')
    intro other other' i h h'
    by_cases heq : other = name <;> by_cases heq' : other' = name
    · rw [heq, heq']
    · rw [heq, Function.update_self, Option.some_inj] at h
      rw [Function.update_of_ne heq'] at h'
      exact absurd h (hother other' i heq' h')
    · rw [heq', Function.update_self, Option.some_inj] at h'
      rw [Function.update_of_ne heq] at h
      exact absurd h' (hother other i heq h)
    · rw [Function.update_of_ne heq] at h
      rw [Function.update_of_ne heq'] at h'
      exact fs.dir_inj other other' i h h'

/-- Let a name lead where another one has led. -/
def move (fs : FileSystem Name) (old new : Name) : FileSystem Name where
  dir := Function.update (Function.update fs.dir new (fs.dir old)) old none
  data := fs.data
  next := fs.next
  dir_lt other i h := by
    rw [Function.update_apply, Function.update_apply] at h
    split_ifs at h with hold hnew
    · exact fs.dir_lt old i h
    · exact fs.dir_lt other i h
  dir_inj other other' i h h' := by
    rw [Function.update_apply, Function.update_apply] at h h'
    split_ifs at h h' with hold hnew hold' hnew'
    · rw [hnew, hnew']
    · exact absurd (fs.dir_inj old other' i h h').symm ‹_›
    · exact absurd (fs.dir_inj other old i h h') ‹_›
    · exact fs.dir_inj other other' i h h'

/-- Move a name; `none` is an error. -/
def rename (fs : FileSystem Name) (old new : Name) : Option (FileSystem Name) :=
  if fs.dir old = none then none else if old = new then some fs else some (fs.move old new)

end Names

/-! ## What the operations do -/

theorem contents_of_dir (h : fs.dir name = some i) : fs.contents name = some (fs.data i) := by
  rw [contents, h, Option.map_some]

/-- Writing at the end of a file. -/
theorem splice_length (bytes new : List UInt8) : splice bytes bytes.length new = bytes ++ new := by
  simp [splice]

@[simp] theorem writeAt_dir (fs : FileSystem Name) (i offset : Nat) (bytes : List UInt8) :
    (fs.writeAt i offset bytes).dir = fs.dir := rfl

theorem writeAt_data_self (fs : FileSystem Name) (i offset : Nat) (bytes : List UInt8) :
    (fs.writeAt i offset bytes).data i = splice (fs.data i) offset bytes := Function.update_self ..

theorem writeAt_data_of_ne (fs : FileSystem Name) {i j : Nat} (offset : Nat) (bytes : List UInt8)
    (h : j ≠ i) : (fs.writeAt i offset bytes).data j = fs.data j := Function.update_of_ne h ..

section Names

variable [DecidableEq Name]

@[simp] theorem create_dir_self (fs : FileSystem Name) (name : Name) :
    (fs.create name).dir name = some (fs.file name) := Function.update_self ..

theorem create_dir_of_ne (fs : FileSystem Name) {other : Name} (h : other ≠ name) :
    (fs.create name).dir other = fs.dir other := Function.update_of_ne h ..

@[simp] theorem create_data_self (fs : FileSystem Name) (name : Name) :
    (fs.create name).data (fs.file name) = [] := Function.update_self ..

@[simp] theorem move_data (fs : FileSystem Name) (old new : Name) :
    (fs.move old new).data = fs.data := rfl

theorem move_dir (fs : FileSystem Name) (old new other : Name) : (fs.move old new).dir other =
    if other = old then none else if other = new then fs.dir old else fs.dir other := by
  change Function.update (Function.update fs.dir new (fs.dir old)) old none other = _
  rw [Function.update_apply, Function.update_apply]

theorem rename_spec (h : fs.rename old new = some fs') (hne : old ≠ new) :
    fs' = fs.move old new ∧ ∃ i, fs.dir old = some i := by
  rw [rename, if_neg hne] at h
  split at h
  · simp at h
  · next hold => exact ⟨(Option.some_inj.mp h).symm, Option.ne_none_iff_exists'.mp hold⟩

end Names

/-! ## What they leave alone -/

/-- Nothing happens but to the files that certain names lead to, and to those names. -/
structure Frame (fs fs' : FileSystem Name) (names : Name → Prop) : Prop where
  /-- No file is forgotten. -/
  next_le : fs.next ≤ fs'.next
  /-- Other names lead where they have led. -/
  dir_eq : ∀ name, ¬ names name → fs'.dir name = fs.dir name
  /-- Other files have the same in them. -/
  data_eq : ∀ i < fs.next, (∀ name, fs.dir name = some i → ¬ names name) → fs'.data i = fs.data i
  /-- No name leads to them that has not done so before. -/
  dir_of : ∀ i < fs.next, (∀ name, fs.dir name = some i → ¬ names name) →
    ∀ name, fs'.dir name = some i → fs.dir name = some i

namespace Frame

variable {names names' : Name → Prop}

theorem refl (fs : FileSystem Name) : Frame fs fs names :=
  ⟨Nat.le_refl _, fun _ _ ↦ rfl, fun _ _ _ ↦ rfl, fun _ _ _ _ h ↦ h⟩

theorem mono (h : Frame fs fs' names) (himp : ∀ name, names name → names' name) :
    Frame fs fs' names' :=
  ⟨h.next_le, fun name hn ↦ h.dir_eq name fun hn' ↦ hn (himp name hn'),
    fun i hi hn ↦ h.data_eq i hi fun name hd hn' ↦ hn name hd (himp name hn'),
    fun i hi hn ↦ h.dir_of i hi fun name hd hn' ↦ hn name hd (himp name hn')⟩

/-- **The frame rule**: what is in the other files does not change. -/
theorem contents (h : Frame fs fs' names) (hn : ¬ names name) :
    fs'.contents name = fs.contents name := by
  rw [FileSystem.contents, FileSystem.contents, h.dir_eq name hn]
  cases hd : fs.dir name with
  | none => rfl
  | some i =>
    have hsole : ∀ other, fs.dir other = some i → ¬ names other :=
      fun other ho ↦ fs.dir_inj other name i ho hd ▸ hn
    rw [Option.map_some, Option.map_some, h.data_eq i (fs.dir_lt name i hd) hsole]

theorem writeAt (hd : fs.dir name = some i) (offset : Nat) (bytes : List UInt8) :
    Frame fs (fs.writeAt i offset bytes) (· = name) := by
  refine ⟨Nat.le_refl _, fun _ _ ↦ rfl, fun j hj hn ↦ ?_, fun _ _ _ _ h ↦ h⟩
  refine writeAt_data_of_ne fs offset bytes ?_
  rintro rfl
  exact hn name hd rfl

variable [DecidableEq Name]

theorem create (fs : FileSystem Name) (name : Name) : Frame fs (fs.create name) (· = name) := by
  have hfile : ∀ i < fs.next, (∀ other, fs.dir other = some i → ¬ other = name) →
      fs.file name ≠ i := fun i hi hn ↦ file_ne hi fun hd ↦ hn name hd rfl
  refine ⟨Nat.le_max_left .., fun other hne ↦ create_dir_of_ne fs hne, fun i hi hn ↦ ?_,
    fun i hi hn other hd ↦ ?_⟩
  · exact Function.update_of_ne (hfile i hi hn).symm ..
  · by_cases heq : other = name
    · rw [heq, create_dir_self, Option.some_inj] at hd
      exact absurd hd (hfile i hi hn)
    · rwa [create_dir_of_ne fs heq] at hd

theorem move (fs : FileSystem Name) (old new : Name) :
    Frame fs (fs.move old new) fun name ↦ name = old ∨ name = new := by
  refine ⟨Nat.le_refl _, fun name hn ↦ ?_, fun _ _ _ ↦ rfl, fun i hi hn name hd ↦ ?_⟩
  · rw [not_or] at hn
    rw [move_dir, if_neg hn.1, if_neg hn.2]
  · rw [move_dir] at hd
    split_ifs at hd with hold hnew
    · exact absurd (Or.inl rfl) (hn old hd)
    · exact hd

end Frame

/-! ## What is seen of them -/

variable [DecidableEq Name]

theorem contents_create (fs : FileSystem Name) (name : Name) :
    (fs.create name).contents = Function.update fs.contents name (some []) := by
  funext other
  by_cases heq : other = name
  · rw [heq, Function.update_self, contents_of_dir (create_dir_self fs name), create_data_self]
  · rw [Function.update_of_ne heq, (Frame.create fs name).contents heq]

/-- Writing at the end of a file that still has its name. -/
theorem contents_writeAt (hd : fs.dir name = some i) (bytes : List UInt8) :
    (fs.writeAt i (fs.data i).length bytes).contents =
      Function.update fs.contents name (some (fs.data i ++ bytes)) := by
  funext other
  by_cases heq : other = name
  · have hd' : (fs.writeAt i (fs.data i).length bytes).dir name = some i := hd
    rw [heq, Function.update_self, contents_of_dir hd', writeAt_data_self, splice_length]
  · rw [Function.update_of_ne heq, (Frame.writeAt hd _ _).contents heq]

theorem contents_move (fs : FileSystem Name) (old new : Name) : (fs.move old new).contents =
    Function.update (Function.update fs.contents new (fs.contents old)) old none := by
  funext other
  rw [contents, move_dir, Function.update_apply, Function.update_apply]
  split_ifs <;> rfl

end FileSystem
