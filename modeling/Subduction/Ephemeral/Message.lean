/-
**Ephemeral messages.**

An ephemeral payload is signed by its originator and forwarded as it is. The header fields are read
from the bytes before the signature is verified, without the payload itself.

* **`header_of_tryVerify`** — what verifies has the header that was read before.
-/

import Subduction.Connection.Message
import Subduction.Handshake.Message

namespace Subduction

structure NonEmpty (α : Type) where
  head : α
  tail : List α
deriving DecidableEq

/-- `NonEmpty::iter`. -/
def NonEmpty.toList {α : Type} (list : NonEmpty α) : List α := list.head :: list.tail

/-- `NonEmpty::from_vec`. -/
def NonEmpty.fromVec {α : Type} : List α → Option (NonEmpty α)
  | [] => none
  | head :: tail => some ⟨head, tail⟩

/-- The identifier of a channel for ephemeral messages. -/
structure Topic where
  bytes : BitVec (8 * 32)
deriving DecidableEq

theorem Topic.toNat_injective : Function.Injective fun topic : Topic => topic.bytes.toNat :=
  fun ⟨_⟩ ⟨_⟩ same => congrArg mk (BitVec.eq_of_toNat_eq same)

instance : LinearOrder Topic :=
  LinearOrder.lift' (fun topic => topic.bytes.toNat) Topic.toNat_injective

/-- **The signable payload of an ephemeral message**; the issuer is known from the signature. -/
structure EphemeralPayload where
  id : Topic
  nonce : UInt64
  timestamp : TimestampSeconds
  payload : List UInt8
deriving DecidableEq

/-- The fields of a payload that are read without copying it. -/
structure EphemeralPayloadHeader where
  id : Topic
  nonce : UInt64
  timestamp : TimestampSeconds
  payloadLen : Nat
deriving DecidableEq

def EphemeralPayload.header (payload : EphemeralPayload) : EphemeralPayloadHeader :=
  ⟨payload.id, payload.nonce, payload.timestamp, payload.payload.length⟩

/-- `EPHEMERAL_PAYLOAD_MIN_FIELDS_SIZE`. -/
def ephemeralPayloadMinFieldsSize : Nat := 32 + 8 + 8 + 1

section Codec

variable [Bijou64Codec]

/-- `EphemeralPayloadHeader::try_decode_with_offset`. -/
def EphemeralPayloadHeader.tryDecodeWithOffset (buf : List UInt8) :
    Except DecodeError (EphemeralPayloadHeader × Nat) := do
  Decode.ensure (ephemeralPayloadMinFieldsSize ≤ buf.length)
    (.messageTooShort "EphemeralPayloadHeader" ephemeralPayloadMinFieldsSize buf.length)
  let id ← Decode.array 32 buf 0
  let nonce ← Decode.u64 buf 32
  let timestamp ← Decode.u64 buf 40
  let (payloadLen, consumed) ← Decode.bijou64 buf 48
  Decode.ensure (payloadLen.toNat ≤ usizeMax)
    (.messageTooShort "EphemeralPayloadHeader payload_len overflow" usizeMax buf.length)
  let offset := 48 + consumed
  let needed := min (offset + payloadLen.toNat) usizeMax
  Decode.ensure (needed ≤ buf.length)
    (.messageTooShort "EphemeralPayloadHeader payload data" needed buf.length)
  pure (⟨⟨id⟩, nonce, ⟨timestamp⟩, payloadLen.toNat⟩, offset)

/-- `EphemeralPayloadHeader::try_decode`. -/
def EphemeralPayloadHeader.tryDecode (buf : List UInt8) : Except DecodeError EphemeralPayloadHeader :=
  (tryDecodeWithOffset buf).map Prod.fst

/-- `EphemeralPayload::try_decode_fields`. -/
def EphemeralPayload.tryDecodeFields (buf : List UInt8) : Except DecodeError (EphemeralPayload × Nat) := do
  let (header, payloadStart) ← EphemeralPayloadHeader.tryDecodeWithOffset buf
  let payloadEnd := payloadStart + header.payloadLen
  Decode.ensure (payloadEnd ≤ buf.length)
    (.messageTooShort "EphemeralPayload payload data" payloadEnd buf.length)
  pure (⟨header.id, header.nonce, header.timestamp, (buf.drop payloadStart).take header.payloadLen⟩,
    payloadEnd)

instance : DecodeFields EphemeralPayload where
  schema := [0x53, 0x55, 0x45, 0x00]
  discriminant := some 0x00
  encodeFields payload :=
    bytesBE 32 payload.id.bytes ++ bytesBE 8 payload.nonce.toBitVec
      ++ bytesBE 8 payload.timestamp.secs.toBitVec
      ++ Bijou64.encode (UInt64.ofNat payload.payload.length) ++ payload.payload
  typeName := "EphemeralPayload"
  minSignedSize := 4 + 1 + 32 + ephemeralPayloadMinFieldsSize + 64
  tryDecodeFields := EphemeralPayload.tryDecodeFields

theorem header_of_tryDecodeFields {buf : List UInt8} {payload : EphemeralPayload} {size : Nat}
    (decoded : EphemeralPayload.tryDecodeFields buf = .ok (payload, size)) :
    EphemeralPayloadHeader.tryDecode buf = .ok payload.header := by
  unfold EphemeralPayload.tryDecodeFields at decoded
  obtain ⟨⟨header, payloadStart⟩, isHeader, decoded⟩ := bind_eq_ok.mp decoded
  obtain ⟨_, fits, done⟩ := bind_eq_ok.mp decoded
  rw [Decode.ensure_eq_ok] at fits
  obtain ⟨rfl, rfl⟩ := Prod.mk.inj (Except.ok.inj done)
  rw [EphemeralPayloadHeader.tryDecode, isHeader]
  show Except.ok header = Except.ok _
  rw [EphemeralPayload.header, List.length_take, List.length_drop, Nat.min_eq_left (by omega)]

theorem header_of_tryVerify [Ed25519] {signed : Signed EphemeralPayload}
    {verified : VerifiedSignature EphemeralPayload} (verifies : signed.tryVerify = .ok verified) :
    EphemeralPayloadHeader.tryDecode signed.fieldsBytes = .ok verified.payload.header := by
  have isSigned := (Signed.tryVerify_eq_ok.mp verifies).1
  have decodes := verified.decodes
  rw [isSigned] at decodes
  change (EphemeralPayload.tryDecodeFields signed.fieldsBytes).map Prod.fst = _ at decodes
  cases fields : EphemeralPayload.tryDecodeFields signed.fieldsBytes with
  | error error =>
    rw [fields] at decodes
    cases decodes
  | ok read =>
    rw [fields] at decodes
    rw [← Except.ok.inj decodes]
    exact header_of_tryDecodeFields fields

end Codec

/-- **The messages of the ephemeral protocol.** -/
inductive EphemeralMessage where
  | ephemeral (signed : Signed EphemeralPayload)
  | subscribe (topics : NonEmpty Topic)
  | unsubscribe (topics : NonEmpty Topic)
  | subscribeRejected (topics : NonEmpty Topic)
deriving DecidableEq

end Subduction
