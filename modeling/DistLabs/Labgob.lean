import DistLabs.Lib.Codec

/-!
# Encoding values for the disk and the network

Everything the labs save or send goes through `labgob`, a thin wrapper around Go's `encoding/gob`.
What the code relies on is that a decoder gives back what an encoder was given, and that an
encoding is never empty — `readPersist` and `decodeSnapshot` both read an empty byte slice as
"nothing was ever saved".  `Labgob α` is exactly that contract for the values of one type.
-/

set_option autoImplicit false

namespace DistLabs

/-- A Go `[]byte`.  A `nil` slice and an empty one are the same value here. -/
abbrev Bytes := List UInt8

/-- The values of `α` can be written by a `LabEncoder` and read back by a `LabDecoder`. -/
class Labgob (α : Type) where
  /-- `Encode`, applied to the fields of the value in the order the code writes them. -/
  encode : α → Bytes
  /-- `Decode`; `none` is a decoding error. -/
  decode : Bytes → Option α
  /-- What was encoded is what is decoded. -/
  decode_encode : ∀ x, decode (encode x) = some x
  /-- An encoding has at least one byte. -/
  encode_ne_nil : ∀ x, encode x ≠ []

attribute [simp] Labgob.decode_encode Labgob.encode_ne_nil

/-- Every type with a `Codec` meets the contract: a byte in front, and nothing behind the value.
The runs that are replayed in this development use this encoding. -/
instance Labgob.ofCodec {α : Type} [Codec α] : Labgob α where
  encode x := 0 :: Codec.write x
  decode
    | [] => none
    | _ :: bytes => match Codec.read bytes with
      | some (x, []) => some x
      | _ => none
  decode_encode x := by
    have h := Codec.read_write x []
    rw [List.append_nil] at h
    simp only [h]
  encode_ne_nil x := by simp

end DistLabs
