/-
**Signed payloads.**

The wire form of a signed payload is the schema, the discriminant where the type has one, the key of
the issuer, the fields, and a signature over everything before it. The signature scheme is a
parameter: `Ed25519` says which byte strings are keys and which signatures verify.

* **`decodeHeader_eq_ok`** — header, fields that decode and signature one after the other.
* **`tryDecodePrefix_framed`** — a decoded value consists of header, fields and signature.
* **`payload_of_toSign`** — a decoded value over the bytes of a sealed one verifies to the payload
  that was sealed, as a value of the same type.
-/

import Subduction.Codec.Fields

namespace Subduction

open List

/-! ### Keys -/

structure VerifyingKey where
  bytes : BitVec (8 * 32)
deriving DecidableEq

structure Signature where
  bytes : BitVec (8 * 64)
deriving DecidableEq

/-- The identity of a peer: the bytes of its verifying key. -/
structure PeerId where
  bytes : BitVec (8 * 32)
deriving DecidableEq

theorem PeerId.toNat_injective : Function.Injective fun id : PeerId => id.bytes.toNat :=
  fun ⟨_⟩ ⟨_⟩ same => congrArg mk (BitVec.eq_of_toNat_eq same)

instance : LinearOrder PeerId :=
  LinearOrder.lift' (fun id => id.bytes.toNat) PeerId.toNat_injective

/-- `PeerId::from` a verifying key. -/
def VerifyingKey.peerId (key : VerifyingKey) : PeerId := ⟨key.bytes⟩

theorem VerifyingKey.peerId_injective : Function.Injective VerifyingKey.peerId := by
  intro ⟨first⟩ ⟨second⟩ same
  exact congrArg mk (congrArg PeerId.bytes same)

/-- **The signature scheme.** -/
class Ed25519 where
  isKey : BitVec (8 * 32) → Bool
  verifyStrict : VerifyingKey → List UInt8 → Signature → Bool

/-- A signer: its key, and the signatures it makes. -/
structure Signer where
  verifyingKey : VerifyingKey
  sign : List UInt8 → Signature

/-- A signer whose signatures show its key, for runs on fixed inputs. -/
def signerOf (key : BitVec (8 * 32)) : Signer := ⟨⟨key⟩, fun _ => ⟨key.setWidth _⟩⟩

/-- The verification of the signatures of `signerOf`. -/
@[reducible] def shownKeys : Ed25519 :=
  ⟨fun _ => true, fun key _ signature => signature.bytes == key.bytes.setWidth _⟩

/-! ### Signed payloads -/

/-- A signed payload whose signature may not have been verified. -/
structure Signed (α : Type) where
  issuer : VerifyingKey
  signature : Signature
  bytes : List UInt8
deriving DecidableEq

/-- Why a signature or its payload was refused. -/
inductive VerificationError where
  | invalidSignature
  | codec (error : DecodeError)
deriving DecidableEq

namespace Signed

variable {α : Type}

/-- What stands before the issuer on the wire: the schema, and the discriminant where there is one. -/
def preamble (α : Type) [EncodeFields α] : List UInt8 :=
  EncodeFields.schema α ++ (EncodeFields.discriminant α).toList

/-- What stands before the fields on the wire. -/
def header (α : Type) [EncodeFields α] (issuer : VerifyingKey) : List UInt8 :=
  preamble α ++ bytesBE 32 issuer.bytes

/-- `Signed::payload_bytes`: what was signed. -/
def payloadBytes (signed : Signed α) : List UInt8 := signed.bytes.take (signed.bytes.length - 64)

/-- `Signed::fields_bytes`. -/
def fieldsBytes [EncodeFields α] (signed : Signed α) : List UInt8 :=
  let start := 4 + (EncodeFields.discriminant α).toList.length + 32
  let stop := signed.bytes.length - 64
  if start ≤ stop then (signed.bytes.take stop).drop start else []

/-- `Signed::try_decode_trusted_payload`. -/
def tryDecodeTrustedPayload [DecodeFields α] (signed : Signed α) : Except DecodeError α :=
  (DecodeFields.tryDecodeFields signed.fieldsBytes).map Prod.fst

end Signed

/-- **A payload whose signature has been verified**: it is what the signed fields decode to. -/
structure VerifiedSignature (α : Type) [DecodeFields α] where
  signed : Signed α
  payload : α
  decodes : signed.tryDecodeTrustedPayload = .ok payload

namespace Signed

variable {α : Type}

/-- `Signed::try_verify`. -/
def tryVerify [Ed25519] [DecodeFields α] (signed : Signed α) :
    Except VerificationError (VerifiedSignature α) :=
  if Ed25519.verifyStrict signed.issuer signed.payloadBytes signed.signature then
    match decodes : signed.tryDecodeTrustedPayload with
    | .ok payload => .ok ⟨signed, payload, decodes⟩
    | .error error => .error (.codec error)
  else .error .invalidSignature

/-- The discriminant of the type, where it has one, stands after the schema. -/
def checkDiscriminant (α : Type) [DecodeFields α] (bytes : List UInt8) : Except DecodeError Unit :=
  match EncodeFields.discriminant α with
  | none => .ok ()
  | some expected =>
    match bytes[4]? with
    | none => .error (.messageTooShort (DecodeFields.typeName α) 5 bytes.length)
    | some got => Decode.ensure (got = expected) (.invalidDiscriminant expected got)

/-- `Signed::decode_header`: the issuer, the signature and the size of the message. -/
def decodeHeader (α : Type) [Ed25519] [DecodeFields α] (bytes : List UInt8) :
    Except DecodeError (VerifyingKey × Signature × Nat) := do
  let tooShort := fun need =>
    DecodeError.messageTooShort (DecodeFields.typeName α) need bytes.length
  Decode.ensure (DecodeFields.minSignedSize α ≤ bytes.length) (tooShort (DecodeFields.minSignedSize α))
  Decode.ensure (bytes.take 4 = EncodeFields.schema α)
    (.invalidSchema (EncodeFields.schema α) (bytes.take 4))
  checkDiscriminant α bytes
  let issuerStart := 4 + (EncodeFields.discriminant α).toList.length
  Decode.ensure (issuerStart + 32 ≤ bytes.length) (tooShort (issuerStart + 32))
  let issuer := ofBytesBE 32 ((bytes.drop issuerStart).take 32)
  Decode.ensure (Ed25519.isKey issuer = true) .invalidVerifyingKey
  let fieldsStart := issuerStart + 32
  let (_, fieldsSize) ← DecodeFields.tryDecodeFields (α := α) (bytes.drop fieldsStart)
  let actualSize := fieldsStart + fieldsSize + 64
  Decode.ensure (actualSize ≤ bytes.length) (tooShort actualSize)
  pure (⟨issuer⟩, ⟨ofBytesBE 64 ((bytes.drop (fieldsStart + fieldsSize)).take 64)⟩, actualSize)

/-- `Signed::try_decode_prefix`. -/
def tryDecodePrefix [Ed25519] [DecodeFields α] (bytes : List UInt8) :
    Except DecodeError (Signed α × Nat) := do
  let (issuer, signature, actualSize) ← decodeHeader α bytes
  pure (⟨issuer, signature, bytes.take actualSize⟩, actualSize)

/-- `Signed::try_decode`. -/
def tryDecode [Ed25519] [DecodeFields α] (bytes : List UInt8) : Except DecodeError (Signed α) :=
  (tryDecodePrefix bytes).map Prod.fst

/-- What a signer signs for a payload. -/
def toSign [EncodeFields α] (issuer : VerifyingKey) (payload : α) : List UInt8 :=
  header α issuer ++ EncodeFields.encodeFields payload

/-- `Signed::seal`, followed by `into_signed`. -/
def sealPayload [EncodeFields α] (signer : Signer) (payload : α) : Signed α :=
  let bytes := toSign signer.verifyingKey payload
  let signature := signer.sign bytes
  ⟨signer.verifyingKey, signature, bytes ++ bytesBE 64 signature.bytes⟩

/-- `Signed::from_parts`: no discriminant is written. -/
def fromParts [EncodeFields α] (issuer : VerifyingKey) (signature : Signature) (payload : α) : Signed α :=
  ⟨issuer, signature, EncodeFields.schema α ++ bytesBE 32 issuer.bytes ++
    EncodeFields.encodeFields payload ++ bytesBE 64 signature.bytes⟩

/-! ### The parts of a decoded value -/

theorem length_header [EncodeFields α] (issuer : VerifyingKey) : (header α issuer).length =
      (EncodeFields.schema α).length + (EncodeFields.discriminant α).toList.length + 32 := by
  simp [header, preamble, Nat.add_assoc]

/-- **The wire bytes consist of header, fields and signature.** -/
def Framed [EncodeFields α] (signed : Signed α) : Prop :=
  (EncodeFields.schema α).length = 4 ∧ ∃ fields, signed.bytes =
      header α signed.issuer ++ fields ++ bytesBE 64 signed.signature.bytes

variable {signed : Signed α} {bytes : List UInt8}

theorem Framed.payloadBytes_eq [EncodeFields α] (framed : signed.Framed) :
    signed.payloadBytes = header α signed.issuer ++ signed.fieldsBytes := by
  obtain ⟨schemaSize, fields, frame⟩ := framed
  have size : signed.bytes.length - 64 = (header α signed.issuer ++ fields).length := by
    rw [frame, length_append, length_bytesBE, Nat.add_sub_cancel]
  have payload : signed.bytes.take (signed.bytes.length - 64) = header α signed.issuer ++ fields := by
    rw [size, frame, take_left]
  have start : 4 + (EncodeFields.discriminant α).toList.length + 32 =
      (header α signed.issuer).length := by
    rw [length_header, schemaSize]
  unfold payloadBytes fieldsBytes
  simp only
  rw [payload, start, if_pos (by rw [size, length_append]; omega), drop_left]

theorem checkDiscriminant_eq_ok [DecodeFields α] {done : Unit} :
    checkDiscriminant α bytes = .ok done ↔
      (EncodeFields.discriminant α).toList <+: bytes.drop 4 := by
  unfold checkDiscriminant
  cases EncodeFields.discriminant α with
  | none => simp
  | some expected =>
    simp only [Option.toList_some, singleton_prefix_iff_head?_eq_some, List.head?_drop]
    cases bytes[4]? with
    | none => simp
    | some got => simp [Decode.ensure_eq_ok]

theorem header_isPrefix [EncodeFields α] {issuer : VerifyingKey}
    (schemaSize : (EncodeFields.schema α).length = 4) :
    header α issuer <+: bytes ↔ EncodeFields.schema α <+: bytes ∧
      (EncodeFields.discriminant α).toList <+: bytes.drop 4 ∧
      bytesBE 32 issuer.bytes <+: bytes.drop (4 + (EncodeFields.discriminant α).toList.length) := by
  unfold header preamble
  rw [← drop_zero (l := bytes), append_isPrefix_drop, append_isPrefix_drop, length_append,
    schemaSize, and_assoc]
  simp

section

variable [Ed25519] [DecodeFields α]

theorem decodeHeader_eq_ok {issuer : VerifyingKey} {signature : Signature} {size : Nat} :
    decodeHeader α bytes = .ok (issuer, signature, size) ↔
      DecodeFields.minSignedSize α ≤ bytes.length ∧ (EncodeFields.schema α).length = 4 ∧
      header α issuer <+: bytes ∧ Ed25519.isKey issuer.bytes = true ∧
      ∃ (value : α) (fieldsSize : Nat),
        DecodeFields.tryDecodeFields (bytes.drop (header α issuer).length) = .ok (value, fieldsSize) ∧
        bytesBE 64 signature.bytes <+: bytes.drop ((header α issuer).length + fieldsSize) ∧
        size = (header α issuer).length + fieldsSize + 64 := by
  have start (schemaSize : (EncodeFields.schema α).length = 4) (issuer : VerifyingKey) :
      (header α issuer).length = 4 + (EncodeFields.discriminant α).toList.length + 32 := by
    rw [length_header, schemaSize]
  simp only [decodeHeader, bind_eq_ok, Decode.ensure_eq_ok, Prod.exists, checkDiscriminant_eq_ok]
  constructor
  · rintro ⟨_, minimal, _, schemaAt, _, discriminantAt, _, issuerFits, _, key, value, fieldsSize, fields,
      _, fits, done⟩
    obtain ⟨rfl, rfl, rfl⟩ := by simpa using Except.ok.inj done
    have schemaSize : (EncodeFields.schema α).length = 4 := by
      rw [← schemaAt, length_take]
      omega
    refine ⟨minimal, schemaSize, ?_, key, value, fieldsSize, ?_⟩
    · refine (header_isPrefix schemaSize).mpr ⟨schemaAt ▸ take_prefix _ _, discriminantAt, ?_⟩
      exact (bytesBE_isPrefix_drop (by decide)).mpr ⟨issuerFits, rfl⟩
    · rw [start schemaSize]
      exact ⟨fields, (bytesBE_isPrefix_drop (by decide)).mpr ⟨fits, rfl⟩, rfl⟩
  · rintro ⟨minimal, schemaSize, headerAt, key, value, fieldsSize, fields, signatureAt, rfl⟩
    obtain ⟨schemaAt, discriminantAt, issuerAt⟩ := (header_isPrefix schemaSize).mp headerAt
    obtain ⟨issuerFits, issuerRead⟩ := (bytesBE_isPrefix_drop (by decide)).mp issuerAt
    obtain ⟨fits, signatureRead⟩ := (bytesBE_isPrefix_drop (by decide)).mp signatureAt
    rw [start schemaSize] at fields fits signatureRead ⊢
    refine ⟨(), minimal, (), ?_, (), discriminantAt, (), issuerFits, (), ?_, value, fieldsSize, fields,
      (), fits, ?_⟩
    · rw [← schemaSize]
      exact (prefix_iff_eq_take.mp schemaAt).symm
    · rw [issuerRead]
      exact key
    · rw [issuerRead, signatureRead]
      rfl

theorem tryDecodePrefix_eq_ok {size : Nat} : tryDecodePrefix bytes = .ok (signed, size) ↔
      decodeHeader α bytes = .ok (signed.issuer, signed.signature, size) ∧
        signed.bytes = bytes.take size := by
  simp only [tryDecodePrefix, bind_eq_ok, Prod.exists]
  constructor
  · rintro ⟨issuer, signature, _, decoded, done⟩
    obtain ⟨rfl, rfl⟩ := Prod.mk.inj (Except.ok.inj done)
    exact ⟨decoded, rfl⟩
  · rintro ⟨decoded, bytesOf⟩
    refine ⟨_, _, _, decoded, ?_⟩
    rw [← bytesOf]
    rfl

theorem tryDecodePrefix_framed
    {size : Nat} (decoded : tryDecodePrefix bytes = .ok (signed, size)) : signed.Framed := by
  obtain ⟨decoded, bytesOf⟩ := tryDecodePrefix_eq_ok.mp decoded
  obtain ⟨_, schemaSize, headerAt, _, _, fieldsSize, _, signatureAt, rfl⟩ :=
    decodeHeader_eq_ok.mp decoded
  refine ⟨schemaSize, (bytes.drop (header α signed.issuer).length).take fieldsSize, ?_⟩
  have signatureEq := prefix_iff_eq_take.mp signatureAt
  rw [length_bytesBE] at signatureEq
  rw [bytesOf, take_add, take_add, ← signatureEq, ← prefix_iff_eq_take.mp headerAt]

theorem tryVerify_eq_ok {verified : VerifiedSignature α} :
    signed.tryVerify = .ok verified ↔ verified.signed = signed ∧
      Ed25519.verifyStrict signed.issuer signed.payloadBytes signed.signature = true := by
  unfold tryVerify
  by_cases valid : Ed25519.verifyStrict signed.issuer signed.payloadBytes signed.signature = true
  · rw [if_pos valid]
    obtain ⟨other, payload, decodes⟩ := verified
    refine ⟨fun verifies => ?_, fun ⟨same, _⟩ => ?_⟩
    · split at verifies
      · exact ⟨(VerifiedSignature.mk.inj (Except.ok.inj verifies)).1.symm, valid⟩
      · exact nomatch verifies
    · obtain rfl : other = signed := same
      split
      · rename_i found decoded
        obtain rfl := Except.ok.inj (decodes.symm.trans decoded)
        rfl
      · rename_i error decoded
        exact nomatch decodes.symm.trans decoded
  · rw [if_neg valid]
    simp [valid]

end

/-! ### What a signer signs -/

/-- **Encoded fields decode to the value they encode.** -/
def RoundTrip (α : Type) [DecodeFields α] : Prop :=
  ∀ value : α, ∃ size, DecodeFields.tryDecodeFields (EncodeFields.encodeFields value) = .ok (value, size)

theorem payload_of_toSign [Ed25519] [DecodeFields α] (roundTrip : RoundTrip α)
    (framed : signed.Framed) {verified : VerifiedSignature α} (verifies : signed.tryVerify = .ok verified)
    {key : VerifyingKey} {payload : α} (same : signed.payloadBytes = toSign key payload) :
    signed.issuer = key ∧ verified.payload = payload := by
  rw [framed.payloadBytes_eq] at same
  obtain ⟨headers, fields⟩ := append_inj same (by rw [length_header, length_header])
  have keys := append_cancel_left headers
  refine ⟨?_, ?_⟩
  · obtain ⟨issuer, signature, bytes⟩ := signed
    obtain ⟨issuer⟩ := issuer
    obtain ⟨key⟩ := key
    exact congrArg VerifyingKey.mk (bytesBE_injective 32 keys)
  · obtain rfl := (tryVerify_eq_ok.mp verifies).1
    obtain ⟨size, encoded⟩ := roundTrip payload
    have decodes := verified.decodes
    rw [tryDecodeTrustedPayload, fields, encoded] at decodes
    exact (Except.ok.inj decodes).symm

@[simp] theorem sealPayload_issuer [EncodeFields α] (signer : Signer) (payload : α) :
    (sealPayload signer payload).issuer = signer.verifyingKey := rfl

@[simp] theorem sealPayload_payloadBytes [EncodeFields α] (signer : Signer) (payload : α) :
    (sealPayload signer payload).payloadBytes = toSign signer.verifyingKey payload := by
  simp [sealPayload, payloadBytes]

theorem tryDecode_framed [Ed25519] [DecodeFields α]
    (decoded : tryDecode bytes = .ok signed) : signed.Framed := by
  unfold tryDecode at decoded
  cases result : tryDecodePrefix (α := α) bytes with
  | error failure =>
    rw [result] at decoded
    exact nomatch decoded
  | ok read =>
    obtain ⟨other, size⟩ := read
    rw [result] at decoded
    obtain rfl := Except.ok.inj decoded
    exact tryDecodePrefix_framed result

theorem toSign_ne {β : Type} [EncodeFields α] [EncodeFields β]
    (size : (preamble α).length = (preamble β).length) (different : preamble α ≠ preamble β)
    {first second : VerifyingKey} {fields : List UInt8} {payload : β} :
    header α first ++ fields ≠ toSign second payload := by
  intro same
  unfold toSign header at same
  rw [append_assoc, append_assoc] at same
  exact different (append_inj_left same size)

end Signed

/-! ### Verified metadata -/

/-- Items that claim the metadata of a blob. -/
class HasBlobMeta (α : Type) where
  blobMeta : α → BlobMeta

instance : HasBlobMeta LooseCommit := ⟨LooseCommit.blobMeta⟩

instance : HasBlobMeta Fragment := ⟨fun fragment => fragment.summary.blobMeta⟩

/-- **A payload with a verified signature whose blob has the metadata it claims.** -/
structure VerifiedMeta (α : Type) [Blake3] [DecodeFields α] [HasBlobMeta α] where
  verified : VerifiedSignature α
  blob : Blob
  meta_eq : BlobMeta.new blob = HasBlobMeta.blobMeta verified.payload

/-- The blob does not have the metadata the payload claims. -/
structure BlobMismatch where
  claimed : BlobMeta
  actual : BlobMeta
deriving DecidableEq

/-- `VerifiedMeta::new`. -/
def VerifiedMeta.new {α : Type} [Blake3] [DecodeFields α] [HasBlobMeta α]
    (verified : VerifiedSignature α) (blob : Blob) : Except BlobMismatch (VerifiedMeta α) :=
  if same : BlobMeta.new blob = HasBlobMeta.blobMeta verified.payload then .ok ⟨verified, blob, same⟩
  else .error ⟨HasBlobMeta.blobMeta verified.payload, BlobMeta.new blob⟩

namespace VerifiedMeta

variable {α : Type} [Blake3] [DecodeFields α] [HasBlobMeta α]

/-- `VerifiedMeta::payload`. -/
def payload (verified : VerifiedMeta α) : α := verified.verified.payload

/-- `VerifiedMeta::signed`. -/
def signed (verified : VerifiedMeta α) : Signed α := verified.verified.signed

/-- `VerifiedMeta::verified_author`. -/
def verifiedAuthor (verified : VerifiedMeta α) : VerifyingKey := verified.signed.issuer

theorem new_eq_ok {verified : VerifiedSignature α} {blob : Blob} {found : VerifiedMeta α}
    (matches' : VerifiedMeta.new verified blob = .ok found) :
    found.verified = verified ∧ found.blob = blob := by
  unfold VerifiedMeta.new at matches'
  split at matches'
  · rw [← Except.ok.inj matches']
    exact ⟨rfl, rfl⟩
  · exact nomatch matches'

end VerifiedMeta

end Subduction
