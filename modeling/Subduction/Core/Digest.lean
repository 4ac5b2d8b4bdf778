/-
**Identifiers, canonical encoding, digests and fingerprints.**

Fixed-size byte arrays are bit vectors read big-endian, so the order on arrays (lexicographic on
bytes) is the order on the numbers. Hashing is by parameters: `Blake3` is the hash behind
`Digest.hash`, `SipHash24` the keyed hash behind `Fingerprint.new`, `Bijou64` the variable-length
integer encoding used by the codec.

* `CommitId`, `SedimentreeId`, `Checkpoint` — identifiers; a checkpoint is the first twelve bytes
  of a commit identifier (`Checkpoint.new`).
* `Encode`, `EncodeFields` — the canonical byte representation: the four-byte schema followed by
  the fields.
* `Digest.hash` — the hash of the canonical representation.
* `Fingerprint.new` — the keyed hash of the raw bytes of a commit identifier.
-/

import Mathlib.Data.Finset.Basic
import Mathlib.Data.Set.Function
import Mathlib.Order.Lattice
import Subduction.Lib.Bytes

namespace Subduction

/-! ### Identifiers -/

/-- The user-supplied identifier of a commit: 32 bytes. -/
structure CommitId where
  bytes : BitVec (8 * 32)
deriving DecidableEq

/-- The identifier of a document: 32 bytes. -/
structure SedimentreeId where
  bytes : BitVec (8 * 32)
deriving DecidableEq

/-- A truncated commit identifier: 12 bytes. -/
structure Checkpoint where
  bytes : BitVec (8 * 12)
deriving DecidableEq

namespace CommitId

theorem toNat_injective : Function.Injective fun id : CommitId => id.bytes.toNat :=
  fun ⟨_⟩ ⟨_⟩ same => congrArg mk (BitVec.eq_of_toNat_eq same)

instance : LinearOrder CommitId := LinearOrder.lift' (fun id => id.bytes.toNat) toNat_injective

/-- `CommitId::as_bytes`. -/
def asBytes (id : CommitId) : List UInt8 := bytesBE 32 id.bytes

@[simp] theorem length_asBytes (id : CommitId) : id.asBytes.length = 32 := length_bytesBE 32 id.bytes

/-- The identifier whose first twelve bytes are a number and whose other bytes are zero. -/
def numbered (n : Nat) : CommitId := ⟨BitVec.ofNat (8 * 32) (n * 2 ^ (8 * 20))⟩

end CommitId

/-- `SedimentreeId::as_bytes`. -/
def SedimentreeId.asBytes (id : SedimentreeId) : List UInt8 := bytesBE 32 id.bytes

@[simp] theorem SedimentreeId.length_asBytes (id : SedimentreeId) : id.asBytes.length = 32 :=
  length_bytesBE 32 id.bytes

namespace Checkpoint

theorem toNat_injective : Function.Injective fun point : Checkpoint => point.bytes.toNat :=
  fun ⟨_⟩ ⟨_⟩ same => congrArg mk (BitVec.eq_of_toNat_eq same)

instance : LinearOrder Checkpoint :=
  LinearOrder.lift' (fun point => point.bytes.toNat) toNat_injective

/-- `Checkpoint::new`: the first twelve bytes of the identifier. -/
def new (id : CommitId) : Checkpoint := ⟨id.bytes.extractLsb' (8 * 20) (8 * 12)⟩

/-- `Checkpoint::as_bytes`. -/
def asBytes (point : Checkpoint) : List UInt8 := bytesBE 12 point.bytes

@[simp] theorem length_asBytes (point : Checkpoint) : point.asBytes.length = 12 :=
  length_bytesBE 12 point.bytes

end Checkpoint

/-! ### Depth -/

/-- How deep in the tree a stratum is. -/
abbrev Depth := Nat

/-- `Depth::is_boundary`: whether a commit of this depth heads a fragment. -/
def Depth.isBoundary (depth : Depth) : Bool := decide (depth > 0)

/-- A strategy for the depth of a commit identifier. -/
abbrev DepthMetric := CommitId → Depth

theorem Depth.isBoundary_iff {depth : Depth} : Depth.isBoundary depth = true ↔ 0 < depth := by
  unfold Depth.isBoundary
  rw [decide_eq_true_eq, gt_iff_lt]

theorem Depth.not_isBoundary_of_pos {depth : Depth} (positive : 0 < depth) :
    (!Depth.isBoundary depth) = false := by
  rw [Depth.isBoundary_iff.mpr positive, Bool.not_true]

theorem Depth.not_isBoundary_of_flat {depth : Depth} (flat : ¬ 0 < depth) :
    (!Depth.isBoundary depth) = true := by
  rw [Bool.not_eq_true', ← Bool.not_eq_true, Depth.isBoundary_iff]
  exact flat

/-! ### Canonical encoding -/

/-- The variable-length encoding of a 64-bit number. -/
class Bijou64 where
  encode : UInt64 → List UInt8

/-- A canonical binary representation. -/
class Encode (α : Type) where
  encode : α → List UInt8

/-- A type with a schema header, a discriminant where several signed types share the header, and
encodable fields. -/
class EncodeFields (α : Type) where
  schema : List UInt8
  discriminant : Option UInt8
  encodeFields : α → List UInt8

/-- The schema header followed by the fields; neither the discriminant nor an issuer is part of
it. -/
instance {α : Type} [EncodeFields α] : Encode α where
  encode value := EncodeFields.schema α ++ EncodeFields.encodeFields value

/-! ### Digests -/

/-- The hash function behind every digest. -/
class Blake3 where
  hash : List UInt8 → BitVec (8 * 32)

/-- A 32-byte digest, tagged with the type of what was digested. -/
structure Digest (α : Type) where
  bytes : BitVec (8 * 32)
deriving DecidableEq

/-- The last 32 bytes as a hash, for runs on fixed inputs. -/
@[reducible] def lastBytes : Blake3 := ⟨ofBytesBE 32⟩

namespace Digest

variable {α : Type}

theorem toNat_injective : Function.Injective fun digest : Digest α => digest.bytes.toNat :=
  fun ⟨_⟩ ⟨_⟩ same => congrArg mk (BitVec.eq_of_toNat_eq same)

instance : LinearOrder (Digest α) :=
  LinearOrder.lift' (fun digest => digest.bytes.toNat) toNat_injective

/-- `Digest::as_bytes`. -/
def asBytes (digest : Digest α) : List UInt8 := bytesBE 32 digest.bytes

@[simp] theorem length_asBytes (digest : Digest α) : digest.asBytes.length = 32 :=
  length_bytesBE 32 digest.bytes

/-- `Digest::hash`: encode and hash. -/
def hash [Blake3] [Encode α] (value : α) : Digest α := ⟨Blake3.hash (Encode.encode value)⟩

end Digest

/-! ### Fingerprints -/

/-- The keyed 64-bit hash behind every fingerprint. -/
class SipHash24 where
  hash : UInt64 → UInt64 → List UInt8 → UInt64

/-- The two keys of the keyed hash, fresh for every sync request. -/
structure FingerprintSeed where
  key0 : UInt64
  key1 : UInt64
deriving DecidableEq

/-- A short keyed hash of a commit identifier. -/
structure Fingerprint where
  value : UInt64
deriving DecidableEq

/-- `Fingerprint::<CommitId>::new`: the keyed hash of the 32 raw bytes. -/
def Fingerprint.new [SipHash24] (seed : FingerprintSeed) (id : CommitId) : Fingerprint :=
  ⟨SipHash24.hash seed.key0 seed.key1 id.asBytes⟩

end Subduction
