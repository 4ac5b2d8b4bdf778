/-
**Items as a storage keeps them.**

A storage writes the signed bytes of an item and the bytes of its blob, and reads them back without
verifying them again. What a program can hand to it was sealed or decoded, so that its signed bytes
decode to it.

* **`decodeVerified_storable`** — the signed bytes of a storable item are read back as the item.
-/

import Subduction.Core.Sedimentree
import Subduction.Crypto.Delimited
import Subduction.Lib.Disk

set_option linter.unusedSectionVars false

namespace Subduction

section Trusted

variable {α : Type} [Ed25519] [DecodeFields α]

/-- An item that was read from a trusted storage: the blob is not compared with its metadata. -/
structure TrustedMeta (α : Type) [DecodeFields α] where
  verified : VerifiedSignature α
  blob : Blob

def TrustedMeta.payload (loaded : TrustedMeta α) : α := loaded.verified.payload

/-- `VerifiedMeta::try_from_trusted`. -/
def tryFromTrusted (signed : Signed α) (blob : Blob) : Option (TrustedMeta α) :=
  match decodes : signed.tryDecodeTrustedPayload with
  | .ok payload => some ⟨⟨signed, payload, decodes⟩, blob⟩
  | .error _ => none

/-- The signed bytes and the blob of an item; what does not decode is skipped. -/
def decodeVerified (bytes : List UInt8) (blob : Blob) : Option (TrustedMeta α) :=
  match Signed.tryDecode (α := α) bytes with
  | .ok signed => tryFromTrusted signed blob
  | .error _ => none

/-- The payload of the signed bytes; what does not decode is skipped. -/
def decodePayload (bytes : List UInt8) : Option α :=
  match Signed.tryDecode (α := α) bytes with
  | .ok signed =>
    match signed.tryDecodeTrustedPayload with
    | .ok payload => some payload
    | .error _ => none
  | .error _ => none

theorem tryFromTrusted_eq {signed : Signed α} {payload : α}
    (decodes : signed.tryDecodeTrustedPayload = .ok payload) (blob : Blob) :
    tryFromTrusted signed blob = some ⟨⟨signed, payload, decodes⟩, blob⟩ := by
  unfold tryFromTrusted
  split
  · rename_i found isFound
    obtain rfl := Except.ok.inj (decodes.symm.trans isFound)
    rfl
  · rename_i error failed
    cases decodes.symm.trans failed

theorem tryFromTrusted_eq_none {signed : Signed α} {failed : DecodeError}
    (fails : signed.tryDecodeTrustedPayload = .error failed) (blob : Blob) :
    tryFromTrusted signed blob = none := by
  unfold tryFromTrusted
  split
  · rename_i found isFound
    cases fails.symm.trans isFound
  · rfl

theorem decodePayload_eq (bytes : List UInt8) (blob : Blob) :
    decodePayload (α := α) bytes = (decodeVerified bytes blob).map TrustedMeta.payload := by
  unfold decodePayload decodeVerified
  cases Signed.tryDecode (α := α) bytes with
  | error failed => rfl
  | ok signed =>
    dsimp only
    cases decodes : signed.tryDecodeTrustedPayload with
    | ok payload =>
      rw [tryFromTrusted_eq decodes blob]
      rfl
    | error failed =>
      rw [tryFromTrusted_eq_none decodes blob]
      rfl

end Trusted

section Storable

variable {α : Type} [Blake3] [Ed25519] [DecodeFields α] [HasBlobMeta α]

/-- **A verified item whose signed bytes decode to it**, and have a size of 32 bits. -/
structure Storable (α : Type) [Blake3] [Ed25519] [DecodeFields α] [HasBlobMeta α] where
  verified : VerifiedMeta α
  decodes : Signed.tryDecode verified.signed.bytes = .ok verified.signed
  short : verified.signed.bytes.length < 2 ^ 32

namespace Storable

variable (item : Storable α)

def payload : α := item.verified.payload

def blob : Blob := item.verified.blob

/-- `Signed::as_bytes`. -/
def signedBytes : List UInt8 := item.verified.signed.bytes

def blobDigest : Digest Blob := (HasBlobMeta.blobMeta item.payload).digest

theorem sizeBytes_eq : (HasBlobMeta.blobMeta item.payload).sizeBytes =
    UInt64.ofNat item.blob.contents.length :=
  (congrArg BlobMeta.sizeBytes item.verified.meta_eq).symm

end Storable

theorem decodeVerified_storable (item : Storable α) (blob : Blob) :
    decodeVerified item.signedBytes blob = some ⟨item.verified.verified, blob⟩ := by
  unfold decodeVerified
  rw [Storable.signedBytes, item.decodes]
  exact tryFromTrusted_eq item.verified.verified.decodes blob

end Storable

/-- The length that `metadata` shows for a file. -/
def fileLength : Option (DirEntry (List UInt8)) → Option Nat
  | some (.file data _) => some data.length
  | _ => none

/-! ### Items of both kinds -/

inductive ItemKind where
  | commit
  | fragment
deriving DecidableEq

section Items

variable [Blake3] [Ed25519] [Bijou64Codec]

/-- A commit or a fragment, with its blob. -/
inductive StorableItem where
  | commit (item : Storable LooseCommit)
  | fragment (item : Storable Fragment)

namespace StorableItem

def kind : StorableItem → ItemKind
  | commit _ => .commit
  | fragment _ => .fragment

/-- The identity of the item: the id of the commit, or the head of the fragment. -/
def head : StorableItem → CommitId
  | commit item => Headed.head item.payload
  | fragment item => Headed.head item.payload

/-- The bytes of the digest of the payload. -/
def digest : StorableItem → BitVec (8 * 32)
  | commit item => (Digest.hash item.payload).bytes
  | fragment item => (Digest.hash item.payload).bytes

def signedBytes : StorableItem → List UInt8
  | commit item => item.signedBytes
  | fragment item => item.signedBytes

def blob : StorableItem → Blob
  | commit item => item.blob
  | fragment item => item.blob

def blobDigest : StorableItem → Digest Blob
  | commit item => item.blobDigest
  | fragment item => item.blobDigest

/-- Two items of one kind with the same payload. -/
def SamePayload : StorableItem → StorableItem → Prop
  | commit first, commit second => first.payload = second.payload
  | fragment first, fragment second => first.payload = second.payload
  | _, _ => False

theorem SamePayload.refl (item : StorableItem) : item.SamePayload item := by
  cases item <;> rfl

theorem SamePayload.blobDigest_eq {first second : StorableItem} (same : first.SamePayload second) :
    first.blobDigest = second.blobDigest := by
  cases first with
  | commit first =>
    cases second with
    | commit second => exact congrArg (fun payload => (HasBlobMeta.blobMeta payload).digest) same
    | fragment second => cases same
  | fragment first =>
    cases second with
    | commit second => cases same
    | fragment second => exact congrArg (fun payload => (HasBlobMeta.blobMeta payload).digest) same

end StorableItem

/-- **No two of the items collide**: one digest belongs to one payload, and to one blob. -/
structure Collisionless (family : StorableItem → Prop) : Prop where
  payloads : ∀ first second, family first → family second → first.kind = second.kind →
    first.digest = second.digest → first.SamePayload second
  blobs : ∀ first second, family first → family second →
    first.blobDigest = second.blobDigest → first.blob = second.blob

end Items

end Subduction
