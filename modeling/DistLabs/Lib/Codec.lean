import Mathlib.Data.List.AList
import Mathlib.Data.UInt

/-!
# Self-delimiting encodings

A `Codec α` writes a value as bytes and reads it back off the front of whatever follows: the reader
knows by itself where the value ends, so a record is written by writing its fields one after the
other.  Numbers are written in base 128, lowest digit first, with the high bit set on all digits but
the last; lists and maps with their length in front.
-/

set_option autoImplicit false

/-- A writer, and a reader that undoes it in front of any other bytes. -/
class Codec (α : Type) where
  /-- The bytes of a value. -/
  write : α → List UInt8
  /-- A value read off the front, and what is left. -/
  read : List UInt8 → Option (α × List UInt8)
  /-- The reader undoes the writer. -/
  read_write : ∀ x rest, read (write x ++ rest) = some (x, rest)

namespace Codec

attribute [simp] read_write

/-! ## Numbers -/

instance : Codec UInt8 where
  write b := [b]
  read
    | [] => none
    | b :: rest => some (b, rest)
  read_write _ _ := rfl

/-- The digits of `k` in base 128; `fuel` bounds their number. -/
def writeNat : ℕ → ℕ → List UInt8
  | 0, _ => []
  | fuel + 1, k =>
    if k < 128 then [UInt8.ofNat k] else UInt8.ofNat (k % 128 + 128) :: writeNat fuel (k / 128)

/-- Read digits up to the first without the high bit. -/
def readNat : List UInt8 → Option (ℕ × List UInt8)
  | [] => none
  | b :: rest =>
    if b.toNat < 128 then some (b.toNat, rest)
    else (readNat rest).map fun p ↦ (b.toNat - 128 + 128 * p.1, p.2)

theorem readNat_writeNat {fuel k : ℕ} (h : k < fuel) (rest : List UInt8) :
    readNat (writeNat fuel k ++ rest) = some (k, rest) := by
  induction fuel generalizing k with
  | zero => omega
  | succ fuel ih =>
    rw [writeNat]
    split
    · next hk =>
      have hb : (UInt8.ofNat k).toNat = k := by
        rw [UInt8.toNat_ofNat']
        omega
      rw [List.singleton_append, readNat, hb, if_pos hk]
    · next hk =>
      have hb : (UInt8.ofNat (k % 128 + 128)).toNat = k % 128 + 128 := by
        rw [UInt8.toNat_ofNat']
        omega
      rw [List.cons_append, readNat, hb, if_neg (by omega), ih (by omega), Option.map_some,
        Option.some_inj, Prod.mk.injEq]
      exact ⟨by omega, rfl⟩

instance : Codec ℕ where
  write k := writeNat (k + 1) k
  read := readNat
  read_write k rest := readNat_writeNat (Nat.lt_succ_self k) rest

/-! ## Composition -/

variable {α β : Type}

instance [Codec α] [Codec β] : Codec (α × β) where
  write p := write p.1 ++ write p.2
  read bytes := do
    let (a, bytes) ← read (α := α) bytes
    let (b, bytes) ← read (α := β) bytes
    return ((a, b), bytes)
  read_write p rest := by simp

instance [Codec α] : Codec (Option α) where
  write
    | none => [0]
    | some x => 1 :: write x
  read
    | [] => none
    | b :: rest => if b = 0 then some (none, rest) else (read rest).map fun p ↦ (some p.1, p.2)
  read_write x rest := by cases x <;> simp

/-- Read `k` values. -/
def readMany (α : Type) [Codec α] : ℕ → List UInt8 → Option (List α × List UInt8)
  | 0, bytes => some ([], bytes)
  | k + 1, bytes => do
    let (x, bytes) ← read bytes
    let (xs, bytes) ← readMany α k bytes
    return (x :: xs, bytes)

theorem readMany_flatMap [Codec α] (xs : List α) (rest : List UInt8) :
    readMany α xs.length (xs.flatMap write ++ rest) = some (xs, rest) := by
  induction xs with
  | nil => rfl
  | cons x xs ih => simp [readMany, ih]

instance [Codec α] : Codec (List α) where
  write xs := write xs.length ++ xs.flatMap write
  read bytes := do
    let (k, bytes) ← read (α := ℕ) bytes
    readMany α k bytes
  read_write xs rest := by simp [readMany_flatMap]

/-- A type whose values are read off those of another one is encoded as those. -/
@[reducible] def ofLeftInverse [Codec α] (f : β → α) (g : α → Option β)
    (h : ∀ x, g (f x) = some x) :
    Codec β where
  write x := write (f x)
  read bytes := do
    let (a, bytes) ← read (α := α) bytes
    let b ← g a
    return (b, bytes)
  read_write x rest := by simp [h]

/-- The sign in front of the absolute value. -/
instance : Codec ℤ :=
  ofLeftInverse (α := UInt8 × ℕ)
    (fun
      | .ofNat k => (0, k)
      | .negSucc k => (1, k))
    (fun p ↦ some (if p.1 = 0 then .ofNat p.2 else .negSucc p.2))
    fun x ↦ by cases x <;> rfl

instance {n : ℕ} : Codec (Fin n) :=
  ofLeftInverse (α := ℕ) Fin.val (fun k ↦ if h : k < n then some ⟨k, h⟩ else none) fun x ↦ by simp

instance : Codec Char :=
  ofLeftInverse (α := ℕ) Char.toNat (fun k ↦ some (Char.ofNat k)) fun c ↦ by simp

instance : Codec String :=
  ofLeftInverse (α := List Char) String.toList (fun l ↦ some (String.ofList l)) fun s ↦ by simp

/-- A map is written as the list of its entries. -/
instance [Codec α] [DecidableEq α] [Codec β] : Codec (AList fun _ : α ↦ β) :=
  ofLeftInverse (α := List (α × β)) (fun m ↦ m.entries.map fun e ↦ (e.1, e.2))
    (fun l ↦
      let entries := l.map fun p : α × β ↦ (⟨p.1, p.2⟩ : Sigma fun _ : α ↦ β)
      if h : entries.keys.Nodup then some ⟨entries, h⟩ else none)
    fun m ↦ by
      have hl : (m.entries.map fun e ↦ (e.1, e.2)).map
          (fun p : α × β ↦ (⟨p.1, p.2⟩ : Sigma fun _ : α ↦ β)) = m.entries := by
        rw [List.map_map]
        exact List.map_id _
      simp only [hl]
      exact dif_pos m.nodupKeys

end Codec
