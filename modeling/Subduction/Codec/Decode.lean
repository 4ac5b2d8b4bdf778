/-
**Decoding of the canonical binary codec.**

Readers take a buffer and an offset and fail with a `DecodeError` when the buffer is too short. The
fields of the two kinds of items decode with the checks of the source: minimal size, the sizes of the
variable part, strictly ascending arrays.

* `Decode.u8`, `Decode.u16`, `Decode.u32`, `Decode.u64`, `Decode.array`, `Decode.verifySorted` — the
  readers.
* `DecodeFields` — types whose signed form can be decoded.
* `bind_eq_ok`, `Decode.ensure_eq_ok` — taking a computation that succeeded apart.
-/

import Subduction.Core.Item

namespace Subduction

/-! ### Errors -/

/-- What was being read. -/
inductive ReadingType where
  | u8
  | u16
  | u32
  | u64
  | array (size : Nat)
  | slice (len : Nat)
deriving DecidableEq

/-- Errors when decoding from the canonical codec. -/
inductive DecodeError where
  | bufferTooShort (reading : ReadingType) (offset need have' : Nat)
  | messageTooShort (typeName : String) (need have' : Nat)
  | invalidSchema (expected got : List UInt8)
  | invalidVerifyingKey
  | unsortedArray (index : Nat)
  | invalidEnumTag (tag : UInt8) (typeName : String)
  | invalidDiscriminant (expected got : UInt8)
  | sizeMismatch (declared actual : Nat)
  | blobTooLarge (size max : Nat)
  | bijou64 (offset : Nat)
deriving DecidableEq

/-- The variable-length encoding of a 64-bit number with its decoder: the number and the bytes it
took. -/
class Bijou64Codec extends Bijou64 where
  decode : List UInt8 → Option (UInt64 × Nat)

/-- The eight bytes of the number, for runs on fixed inputs. -/
@[reducible] def eightBytes : Bijou64Codec where
  encode number := bytesBE 8 number.toBitVec
  decode bytes :=
    if 8 ≤ bytes.length then some (UInt64.ofBitVec (ofBytesBE 8 (bytes.take 8)), 8) else none

/-! ### Readers -/

namespace Decode

def ensure (condition : Prop) [Decidable condition] (error : DecodeError) : Except DecodeError Unit :=
  if condition then .ok () else .error error

/-- `decode::array`. -/
def array (n : Nat) (buf : List UInt8) (offset : Nat) : Except DecodeError (BitVec (8 * n)) :=
  if offset + n ≤ buf.length then .ok (ofBytesBE n ((buf.drop offset).take n))
  else .error (.bufferTooShort (.array n) offset n (buf.length - offset))

/-- `decode::u8`. -/
def u8 (buf : List UInt8) (offset : Nat) : Except DecodeError UInt8 :=
  match buf[offset]? with
  | some byte => .ok byte
  | none => .error (.bufferTooShort .u8 offset 1 (buf.length - offset))

/-- `decode::u16`. -/
def u16 (buf : List UInt8) (offset : Nat) : Except DecodeError UInt16 :=
  if offset + 2 ≤ buf.length then .ok (UInt16.ofBitVec (ofBytesBE 2 ((buf.drop offset).take 2)))
  else .error (.bufferTooShort .u16 offset 2 (buf.length - offset))

/-- `decode::u32`. -/
def u32 (buf : List UInt8) (offset : Nat) : Except DecodeError UInt32 :=
  if offset + 4 ≤ buf.length then .ok (UInt32.ofBitVec (ofBytesBE 4 ((buf.drop offset).take 4)))
  else .error (.bufferTooShort .u32 offset 4 (buf.length - offset))

/-- `decode::u64`. -/
def u64 (buf : List UInt8) (offset : Nat) : Except DecodeError UInt64 :=
  if offset + 8 ≤ buf.length then .ok (UInt64.ofBitVec (ofBytesBE 8 ((buf.drop offset).take 8)))
  else .error (.bufferTooShort .u64 offset 8 (buf.length - offset))

/-- `decode::verify_sorted`, from the element at `index` on. -/
def verifySorted {n : Nat} : List (BitVec (8 * n)) → Nat → Except DecodeError Unit
  | prev :: curr :: rest, index =>
    if curr ≤ prev then .error (.unsortedArray (index + 1)) else verifySorted (curr :: rest) (index + 1)
  | _, _ => .ok ()

/-- `count` arrays of `n` bytes from the offset on. -/
def arrays (n : Nat) (buf : List UInt8) : Nat → Nat → Except DecodeError (List (BitVec (8 * n)))
  | 0, _ => .ok []
  | count + 1, offset => do
      let first ← array n buf offset
      let rest ← arrays n buf count (offset + n)
      pure (first :: rest)

/-- `bijoux::u64::decode` at an offset. -/
def bijou64 [Bijou64Codec] (buf : List UInt8) (offset : Nat) : Except DecodeError (UInt64 × Nat) :=
  match Bijou64Codec.decode (buf.drop offset) with
  | some read => .ok read
  | none => .error (.bijou64 offset)

end Decode

/-- **Types whose signed form can be decoded**: the fields, and how many bytes they took. -/
class DecodeFields (α : Type) extends EncodeFields α where
  typeName : String
  minSignedSize : Nat
  tryDecodeFields : List UInt8 → Except DecodeError (α × Nat)

/-! ### Items -/

/-- The size of the fields of a commit without the blob size and the parents. -/
def LooseCommit.codecFixedFieldsSize : Nat := 32 + 32 + 32 + 1

/-- The size of the fields of a fragment without the blob size, the boundary and the checkpoints. -/
def Fragment.codecFixedFieldsSize : Nat := 32 + 32 + 32 + 1 + 2

/-- `LooseCommit::try_decode_fields`. -/
def LooseCommit.tryDecodeFields [Bijou64Codec] (buf : List UInt8) :
    Except DecodeError (LooseCommit × Nat) := do
  Decode.ensure (codecFixedFieldsSize + 1 ≤ buf.length)
    (.messageTooShort "LooseCommit" (codecFixedFieldsSize + 1) buf.length)
  let sedimentreeId ← Decode.array 32 buf 0
  let head ← Decode.array 32 buf 32
  let blobDigest ← Decode.array 32 buf 64
  let parentCount ← Decode.u8 buf 96
  let (blobSize, consumed) ← Decode.bijou64 buf 97
  let offset := 97 + consumed
  let parentsSize := parentCount.toNat * 32
  Decode.ensure (offset + parentsSize ≤ buf.length)
    (.bufferTooShort (.slice parentsSize) offset parentsSize (buf.length - offset))
  let parents ← Decode.arrays 32 buf parentCount.toNat offset
  Decode.verifySorted parents 0
  pure (⟨⟨sedimentreeId⟩, ⟨head⟩, (parents.map CommitId.mk).toFinset, ⟨⟨blobDigest⟩, blobSize⟩⟩,
    offset + parentsSize)

/-- `Fragment::try_decode_fields`. -/
def Fragment.tryDecodeFields [Bijou64Codec] (buf : List UInt8) :
    Except DecodeError (Fragment × Nat) := do
  Decode.ensure (codecFixedFieldsSize + 1 ≤ buf.length)
    (.messageTooShort "Fragment" (codecFixedFieldsSize + 1) buf.length)
  let sedimentreeId ← Decode.array 32 buf 0
  let head ← Decode.array 32 buf 32
  let blobDigest ← Decode.array 32 buf 64
  let boundaryCount ← Decode.u8 buf 96
  let checkpointCount ← Decode.u16 buf 97
  let (blobSize, consumed) ← Decode.bijou64 buf 99
  let offset := 99 + consumed
  let boundarySize := boundaryCount.toNat * 32
  let checkpointsSize := checkpointCount.toNat * 12
  let totalVariableSize := boundarySize + checkpointsSize
  Decode.ensure (offset + totalVariableSize ≤ buf.length)
    (.bufferTooShort (.slice totalVariableSize) offset totalVariableSize (buf.length - offset))
  let boundary ← Decode.arrays 32 buf boundaryCount.toNat offset
  Decode.verifySorted boundary 0
  let checkpoints ← Decode.arrays 12 buf checkpointCount.toNat (offset + boundarySize)
  Decode.verifySorted checkpoints 0
  pure (⟨⟨sedimentreeId⟩, ⟨⟨head⟩, (boundary.map CommitId.mk).toFinset, ⟨⟨blobDigest⟩, blobSize⟩⟩,
    (checkpoints.map Checkpoint.mk).toFinset⟩, offset + totalVariableSize)

instance [Bijou64Codec] : DecodeFields LooseCommit where
  typeName := "LooseCommit"
  minSignedSize := 4 + 32 + (LooseCommit.codecFixedFieldsSize + 1) + 64
  tryDecodeFields := LooseCommit.tryDecodeFields

instance [Bijou64Codec] : DecodeFields Fragment where
  typeName := "Fragment"
  minSignedSize := 4 + 32 + (Fragment.codecFixedFieldsSize + 1) + 64
  tryDecodeFields := Fragment.tryDecodeFields

/-! ### Reading what was written -/

theorem bind_eq_ok {ε α β : Type} {first : Except ε α} {next : α → Except ε β} {result : β} :
    (first >>= next) = .ok result ↔ ∃ value, first = .ok value ∧ next value = .ok result := by
  cases first with
  | error failure =>
    refine ⟨fun impossible => ?_, fun ⟨_, impossible, _⟩ => ?_⟩
    · exact nomatch impossible
    · exact nomatch impossible
  | ok value =>
    refine ⟨fun done => ⟨value, rfl, done⟩, fun ⟨other, same, done⟩ => ?_⟩
    rw [Except.ok.inj same]
    exact done

namespace Decode

theorem ensure_eq_ok {condition : Prop} [Decidable condition] {error : DecodeError} {done : Unit} :
    ensure condition error = .ok done ↔ condition := by
  unfold ensure
  by_cases holds : condition
  · rw [if_pos holds]
    exact ⟨fun _ => holds, fun _ => rfl⟩
  · rw [if_neg holds]
    refine ⟨fun impossible => ?_, fun isTrue => absurd isTrue holds⟩
    exact nomatch impossible

end Decode

end Subduction
