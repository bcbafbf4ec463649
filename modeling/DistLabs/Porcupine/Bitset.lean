import Mathlib.Data.Finset.Basic
import Mathlib.Data.Finset.Image
import Mathlib.Data.BitVec

/-!
# Bitsets

`bitset.go` of `porcupine`: sets of small numbers, in words of 64 bits.  An index beyond the last
word makes the code panic, so writing returns an `Option`.

`Holds b s` says that `b` is the bitset of `s`.  Setting and then clearing a new bit gives the
bitset back (`clear_set`).
-/

set_option autoImplicit false

namespace DistLabs.Porcupine

/-- `bitset`. -/
abbrev Bitset := List (BitVec 64)

/-- `newBitset`. -/
def newBitset (bits : Nat) : Bitset :=
  List.replicate (bits / 64 + if bits % 64 ≠ 0 then 1 else 0) 0

/-- `bitsetIndex`. -/
def bitsetIndex (pos : Nat) : Nat × Nat := (pos / 64, pos % 64)

/-- `1 << minor`. -/
def bit (minor : Nat) : BitVec 64 := 1#64 <<< minor

namespace Bitset

/-- `set`. -/
def set (b : Bitset) (pos : Nat) : Option Bitset :=
  let (major, minor) := bitsetIndex pos
  if major < b.length then some (b.modify major (· ||| bit minor)) else none

/-- `clear`. -/
def clear (b : Bitset) (pos : Nat) : Option Bitset :=
  let (major, minor) := bitsetIndex pos
  if major < b.length then some (b.modify major (· &&& ~~~bit minor)) else none

/-- `get`; there are no bits beyond the end. -/
def get (b : Bitset) (pos : Nat) : Bool :=
  let (major, minor) := bitsetIndex pos
  (b[major]?.getD 0) &&& bit minor != 0

/-- `bits.OnesCount64`. -/
def onesCount (v : BitVec 64) : Nat := (List.range 64).countP v.getLsbD

/-- `popcnt`. -/
def popcnt (b : Bitset) : Nat := (b.map onesCount).sum

/-- `hash`. -/
def hash (b : Bitset) : BitVec 64 := b.foldl (· ^^^ ·) (BitVec.ofNat 64 b.popcnt)

/-- The loop of `equals`. -/
def equalsFrom : Bitset → Bitset → Bool
  | v :: b, v' :: b' => if v ≠ v' then false else equalsFrom b b'
  | _, _ => true

/-- `equals`. -/
def equals (b b' : Bitset) : Bool := if b.length ≠ b'.length then false else equalsFrom b b'

/-! ## Bits -/

variable {b b' : Bitset} {s s' : Finset ℕ} {pos q : ℕ}

theorem getLsbD_bit (minor i : ℕ) (hi : i < 64) : (bit minor).getLsbD i = decide (i = minor) := by
  rw [bit, BitVec.getLsbD_shiftLeft, BitVec.getLsbD_one]
  by_cases h : i = minor
  · subst h
    simp [hi]
  · by_cases hlt : i < minor
    · simp [hlt, h]
    · simp [hi, hlt, h]
      omega

theorem get_eq (b : Bitset) (pos : ℕ) :
    b.get pos = (b[pos / 64]?.getD 0).getLsbD (pos % 64) := by
  have hlt : pos % 64 < 64 := Nat.mod_lt _ (by decide)
  rw [get, bitsetIndex]
  dsimp only
  generalize b[pos / 64]?.getD 0 = v
  cases hv : v.getLsbD (pos % 64) with
  | true =>
    rw [bne_iff_ne]
    intro h0
    have := congrArg (·.getLsbD (pos % 64)) h0
    simp [hv, getLsbD_bit _ _ hlt] at this
  | false =>
    rw [bne_eq_false_iff_eq]
    refine BitVec.eq_of_getLsbD_eq fun i hi ↦ ?_
    rw [BitVec.getLsbD_and, getLsbD_bit _ _ hi]
    by_cases h : i = pos % 64
    · simp [h, hv]
    · simp [h]

/-- One word changes. -/
theorem get_modify (b : Bitset) (major : ℕ) (f : BitVec 64 → BitVec 64) (q : ℕ)
    (hlt : major < b.length) :
    Bitset.get (b.modify major f) q = if major = q / 64 then
      (f (b[q / 64]?.getD 0)).getLsbD (q % 64) else b.get q := by
  rw [get_eq, get_eq, List.getElem?_modify]
  by_cases h : major = q / 64
  · simp [h, List.getElem?_eq_getElem (h ▸ hlt)]
  · simp [h]

theorem set_spec (h : b.set pos = some b') :
    pos / 64 < b.length ∧ b' = b.modify (pos / 64) (· ||| bit (pos % 64)) := by
  rw [set] at h
  dsimp only [bitsetIndex] at h
  split at h
  · next hlt => exact ⟨hlt, (Option.some_inj.mp h).symm⟩
  · simp at h

theorem clear_spec (h : b.clear pos = some b') :
    pos / 64 < b.length ∧ b' = b.modify (pos / 64) (· &&& ~~~bit (pos % 64)) := by
  rw [clear] at h
  dsimp only [bitsetIndex] at h
  split at h
  · next hlt => exact ⟨hlt, (Option.some_inj.mp h).symm⟩
  · simp at h

theorem set_isSome (h : pos < 64 * b.length) : ∃ b', b.set pos = some b' :=
  ⟨_, if_pos (Nat.div_lt_of_lt_mul h)⟩

theorem set_length (h : b.set pos = some b') : b'.length = b.length := by
  rw [(set_spec h).2, List.length_modify]

theorem clear_length (h : b.clear pos = some b') : b'.length = b.length := by
  rw [(clear_spec h).2, List.length_modify]

theorem get_set (h : b.set pos = some b') (q : ℕ) :
    b'.get q = (decide (q = pos) || b.get q) := by
  obtain ⟨hlt, rfl⟩ := set_spec h
  have hq : q % 64 < 64 := Nat.mod_lt _ (by decide)
  rw [get_modify _ _ _ _ hlt]
  split
  · next hmaj =>
    have hiff : q % 64 = pos % 64 ↔ q = pos := by omega
    simp [getLsbD_bit _ _ hq, get_eq, hiff, Bool.or_comm]
  · next hmaj =>
    have hne : q ≠ pos := fun h ↦ hmaj (by rw [h])
    simp [hne]

theorem get_clear (h : b.clear pos = some b') (q : ℕ) :
    b'.get q = (!decide (q = pos) && b.get q) := by
  obtain ⟨hlt, rfl⟩ := clear_spec h
  have hq : q % 64 < 64 := Nat.mod_lt _ (by decide)
  rw [get_modify _ _ _ _ hlt]
  split
  · next hmaj =>
    have hiff : q % 64 = pos % 64 ↔ q = pos := by omega
    rw [BitVec.getLsbD_and, BitVec.getLsbD_not, getLsbD_bit _ _ hq, get_eq, Bool.and_comm]
    simp [hiff, hq]
  · next hmaj =>
    have hne : q ≠ pos := fun h ↦ hmaj (by rw [h])
    simp [hne]

/-- Bitsets of one length with the same bits are the same. -/
theorem eq_of_get (hlen : b.length = b'.length) (h : ∀ q, b.get q = b'.get q) : b = b' := by
  refine List.ext_getElem hlen fun i hi hi' ↦ BitVec.eq_of_getLsbD_eq fun j hj ↦ ?_
  have := h (64 * i + j)
  rw [get_eq, get_eq, show (64 * i + j) / 64 = i by omega, show (64 * i + j) % 64 = j by omega,
    List.getElem?_eq_getElem hi, List.getElem?_eq_getElem hi'] at this
  exact this

theorem equals_iff : b.equals b' = true ↔ b = b' := by
  rw [equals]
  constructor
  · intro h
    split at h
    · simp at h
    · next hlen =>
      rw [not_not] at hlen
      induction b generalizing b' with
      | nil => exact (List.eq_nil_of_length_eq_zero hlen.symm).symm
      | cons v b ih =>
        cases b' with
        | nil => simp at hlen
        | cons v' b' =>
          rw [equalsFrom] at h
          split at h
          · simp at h
          · next hv =>
            rw [not_not] at hv
            rw [hv, ih (by simpa using hlen) h]
  · rintro rfl
    rw [if_neg (by simp)]
    induction b with
    | nil => rfl
    | cons v b ih => simpa [equalsFrom] using ih

/-! ## Sets -/

/-- `b` is the bitset of `s`. -/
def Holds (b : Bitset) (s : Finset ℕ) : Prop := ∀ q, b.get q = true ↔ q ∈ s

theorem holds_newBitset (n : ℕ) : (newBitset n).Holds ∅ := by
  intro q
  rw [get_eq, newBitset, List.getElem?_replicate]
  generalize n / 64 + (if n % 64 ≠ 0 then 1 else 0) = chunks
  split <;> simp

theorem newBitset_length (n : ℕ) : n ≤ 64 * (newBitset n).length := by
  rw [newBitset, List.length_replicate]
  split <;> omega

theorem Holds.set (h : b.Holds s) (hs : b.set pos = some b') : b'.Holds (insert pos s) := by
  intro q
  rw [get_set hs, Bool.or_eq_true, decide_eq_true_iff, h q, Finset.mem_insert]

/-- A bitset has one set. -/
theorem Holds.inj (h : b.Holds s) (h' : b.Holds s') : s = s' :=
  Finset.ext fun q ↦ (h q).symm.trans (h' q)

/-- **Setting a new bit can be undone.** -/
theorem clear_set (h : b.Holds s) (hpos : pos ∉ s) (hs : b.set pos = some b') :
    b'.clear pos = some b := by
  obtain ⟨b'', hc⟩ : ∃ b'', b'.clear pos = some b'' :=
    ⟨_, if_pos (by rw [set_length hs]; exact (set_spec hs).1)⟩
  rw [hc, Option.some_inj]
  refine eq_of_get ((clear_length hc).trans (set_length hs)) fun q ↦ ?_
  rw [get_clear hc, get_set hs]
  by_cases hq : q = pos
  · subst hq
    have : b.get q = false := Bool.eq_false_iff.mpr fun h' ↦ hpos ((h q).mp h')
    simp [this]
  · simp [hq]

end Bitset

end DistLabs.Porcupine
