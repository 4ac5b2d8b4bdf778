/-
**The messages of the handshake.**

The initiator signs a `Challenge` for an audience, the responder signs a `Response` with the digest of
the challenge, or sends an unsigned `Rejection`. All three share the schema `SUH`; the byte after it
tells them apart, and for the signed ones it is the discriminant of the type.

* `Challenge.validate`, `Challenge.isFresh`, `Response.validate` — the checks on the contents.
* `HandshakeMessage.encode`, `HandshakeMessage.tryDecode` — the wire format.
* `challenge_laws`, `response_laws` — the fields decode exactly where they stand at the front of the
  buffer.
* `preamble_challenge_ne_response` — what is signed for a challenge is never what is signed for a
  response.
-/

import Subduction.Crypto.Delimited

namespace Subduction

open Decode List

/-! ### Time -/

/-- A span of time, in nanoseconds. -/
structure Duration where
  nanos : Nat
deriving DecidableEq

/-- `Duration::from_secs`. -/
def Duration.fromSecs (secs : Nat) : Duration := ⟨secs * 1000000000⟩

/-- `Duration::as_secs`. -/
def Duration.asSecs (duration : Duration) : Nat := duration.nanos / 1000000000

/-- Seconds since the epoch. -/
structure TimestampSeconds where
  secs : UInt64
deriving DecidableEq

/-- `TimestampSeconds::as_secs`. -/
def TimestampSeconds.asSecs (timestamp : TimestampSeconds) : Nat := timestamp.secs.toNat

theorem TimestampSeconds.asSecs_lt (timestamp : TimestampSeconds) : timestamp.asSecs < 2 ^ 64 :=
  timestamp.secs.toNat_lt

/-- `TimestampSeconds::abs_diff`. -/
def TimestampSeconds.absDiff (timestamp other : TimestampSeconds) : Duration :=
  .fromSecs (max timestamp.asSecs other.asSecs - min timestamp.asSecs other.asSecs)

/-- `MAX_PLAUSIBLE_DRIFT`: ten minutes. -/
def maxPlausibleDrift : Duration := .fromSecs (10 * 60)

/-- `SIMULTANEOUS_OPEN_MAX_DRIFT`. -/
def simultaneousOpenMaxDrift : Duration := .fromSecs (10 * 60)

/-! ### Challenges -/

/-- Random bytes for uniqueness. -/
structure Nonce where
  bytes : BitVec (8 * 16)
deriving DecidableEq

/-- The hash of a service identifier. -/
structure DiscoveryId where
  bytes : BitVec (8 * 32)
deriving DecidableEq

/-- The intended recipient of a challenge. -/
inductive Audience where
  | known (id : PeerId)
  | discover (id : DiscoveryId)
deriving DecidableEq

/-- **A handshake challenge**; who sends it is known from the signature only. -/
structure Challenge where
  audience : Audience
  timestamp : TimestampSeconds
  nonce : Nonce
deriving DecidableEq

inductive ChallengeValidationError where
  | invalidAudience
  | clockDrift (clientTimestamp serverTimestamp : TimestampSeconds)
  | replayedNonce
deriving DecidableEq

/-- Why a handshake was rejected, as told to the initiator. -/
inductive RejectionReason where
  | clockDrift
  | invalidAudience
  | replayedNonce
  | invalidSignature
deriving DecidableEq

/-- `ChallengeValidationError::to_rejection_reason`. -/
def ChallengeValidationError.toRejectionReason : ChallengeValidationError → RejectionReason
  | invalidAudience => .invalidAudience
  | clockDrift _ _ => .clockDrift
  | replayedNonce => .replayedNonce

namespace Challenge

/-- `Challenge::is_fresh`. -/
def isFresh (challenge : Challenge) (now : TimestampSeconds) (maxDrift : Duration) : Bool :=
  decide ((challenge.timestamp.absDiff now).nanos ≤ maxDrift.nanos)

/-- `Challenge::validate`. -/
def validate (challenge : Challenge) (expectedAudience : Audience) (now : TimestampSeconds)
    (maxDrift : Duration) : Except ChallengeValidationError Unit :=
  if challenge.audience ≠ expectedAudience then .error .invalidAudience
  else if challenge.isFresh now maxDrift = false then .error (.clockDrift challenge.timestamp now)
  else .ok ()

def fieldsSize : Nat := 1 + 32 + 8 + 16

/-- The tag and the value of an audience. -/
def audienceParts : Audience → UInt8 × BitVec (8 * 32)
  | .known id => (0x00, id.bytes)
  | .discover id => (0x01, id.bytes)

/-- `Challenge::encode_fields`. -/
def encodeFields (challenge : Challenge) : List UInt8 :=
  [(audienceParts challenge.audience).1] ++ (bytesBE 32 (audienceParts challenge.audience).2
    ++ (bytesBE 8 challenge.timestamp.secs.toBitVec ++ (bytesBE 16 challenge.nonce.bytes ++ [])))

/-- `Challenge::try_decode_fields`. -/
def tryDecodeFields (buf : List UInt8) : Except DecodeError (Challenge × Nat) := do
  Decode.ensure (fieldsSize ≤ buf.length) (.messageTooShort "Challenge" fieldsSize buf.length)
  let audienceTag ← Decode.u8 buf 0
  let audienceValue ← Decode.array 32 buf 1
  let audience ← match audienceTag with
    | 0x00 => Except.ok (Audience.known ⟨audienceValue⟩)
    | 0x01 => Except.ok (Audience.discover ⟨audienceValue⟩)
    | tag => Except.error (DecodeError.invalidEnumTag tag "Audience")
  let timestamp ← Decode.u64 buf 33
  let nonce ← Decode.array 16 buf 41
  pure (⟨audience, ⟨timestamp⟩, ⟨nonce⟩⟩, fieldsSize)

end Challenge

/-- The schema of the handshake, `SUH` and version zero. -/
def handshakeSchema : List UInt8 := [0x53, 0x55, 0x48, 0x00]

instance : DecodeFields Challenge where
  schema := handshakeSchema
  discriminant := some 0x00
  encodeFields := Challenge.encodeFields
  typeName := "Challenge"
  minSignedSize := 4 + 1 + 32 + Challenge.fieldsSize + 64
  tryDecodeFields := Challenge.tryDecodeFields

/-! ### Responses -/

/-- **A handshake response**: the digest of the challenge, and the time of the responder. -/
structure Response where
  challengeDigest : Digest Challenge
  serverTimestamp : TimestampSeconds
deriving DecidableEq

inductive ResponseValidationError where
  | challengeMismatch
deriving DecidableEq

namespace Response

variable [Blake3]

/-- `Response::for_challenge`. -/
def forChallenge (challenge : Challenge) (now : TimestampSeconds) : Response :=
  ⟨Digest.hash challenge, now⟩

/-- `Response::validate`. -/
def validate (response : Response) (expectedChallenge : Challenge) :
    Except ResponseValidationError Unit :=
  if response.challengeDigest ≠ Digest.hash expectedChallenge then .error .challengeMismatch
  else .ok ()

def fieldsSize : Nat := 32 + 8

/-- `Response::encode_fields`. -/
def encodeFields (response : Response) : List UInt8 :=
  bytesBE 32 response.challengeDigest.bytes
    ++ (bytesBE 8 response.serverTimestamp.secs.toBitVec ++ [])

/-- `Response::try_decode_fields`. -/
def tryDecodeFields (buf : List UInt8) : Except DecodeError (Response × Nat) := do
  Decode.ensure (fieldsSize ≤ buf.length) (.messageTooShort "Response" fieldsSize buf.length)
  let challengeDigest ← Decode.array 32 buf 0
  let serverTimestamp ← Decode.u64 buf 32
  pure (⟨⟨challengeDigest⟩, ⟨serverTimestamp⟩⟩, fieldsSize)

end Response

instance : DecodeFields Response where
  schema := handshakeSchema
  discriminant := some 0x01
  encodeFields := Response.encodeFields
  typeName := "Response"
  minSignedSize := 4 + 1 + 32 + Response.fieldsSize + 64
  tryDecodeFields := Response.tryDecodeFields

/-! ### Rejections -/

structure Rejection where
  reason : RejectionReason
  serverTimestamp : TimestampSeconds
deriving DecidableEq

def RejectionReason.toByte : RejectionReason → UInt8
  | clockDrift => 0x00
  | invalidAudience => 0x01
  | replayedNonce => 0x02
  | invalidSignature => 0x03

/-- `RejectionReason::try_from`. -/
def RejectionReason.tryFrom : UInt8 → Except DecodeError RejectionReason
  | 0x00 => .ok clockDrift
  | 0x01 => .ok invalidAudience
  | 0x02 => .ok replayedNonce
  | 0x03 => .ok invalidSignature
  | tag => .error (.invalidEnumTag tag "RejectionReason")

namespace Rejection

def size : Nat := 1 + 8

/-- `Rejection::encode_payload`. -/
def encodePayload (rejection : Rejection) : List UInt8 :=
  rejection.reason.toByte :: bytesBE 8 rejection.serverTimestamp.secs.toBitVec

/-- `Rejection::try_decode_payload`. -/
def tryDecodePayload (payload : List UInt8) : Except DecodeError Rejection := do
  let tooShort := DecodeError.messageTooShort "Rejection" size payload.length
  Decode.ensure (size ≤ payload.length) tooShort
  let reason ← RejectionReason.tryFrom (payload.headD 0)
  pure ⟨reason, ⟨UInt64.ofBitVec (ofBytesBE 8 ((payload.drop 1).take 8))⟩⟩

end Rejection

/-! ### The wire format -/

/-- **A handshake message.** -/
inductive HandshakeMessage where
  | signedChallenge (signed : Signed Challenge)
  | signedResponse (signed : Signed Response)
  | rejection (reply : Rejection)
deriving DecidableEq

namespace HandshakeMessage

/-- `HandshakeMessage::encode`. -/
def encode : HandshakeMessage → List UInt8
  | signedChallenge signed => signed.bytes
  | signedResponse signed => signed.bytes
  | rejection reply => handshakeSchema ++ [0x02] ++ reply.encodePayload

/-- `HandshakeMessage::try_decode`. -/
def tryDecode [Ed25519] (bytes : List UInt8) : Except DecodeError HandshakeMessage := do
  Decode.ensure (5 ≤ bytes.length) (.messageTooShort "HandshakeMessage" 5 bytes.length)
  Decode.ensure (bytes.take 4 = handshakeSchema) (.invalidSchema handshakeSchema (bytes.take 4))
  match (bytes[4]? : Option UInt8) with
  | some 0x00 => do
      let signed ← Signed.tryDecode bytes
      pure (signedChallenge signed)
  | some 0x01 => do
      let signed ← Signed.tryDecode bytes
      pure (signedResponse signed)
  | some 0x02 => do
      let decoded ← Rejection.tryDecodePayload (bytes.drop 5)
      pure (rejection decoded)
  | some tag => .error (.invalidEnumTag tag "HandshakeMessage")
  | none => .error (.messageTooShort "HandshakeMessage" 5 bytes.length)

end HandshakeMessage

/-! ### The fields -/

theorem Challenge.encodeFields_isPrefix {challenge : Challenge} {buf : List UInt8} :
    challenge.encodeFields <+: buf ↔ [(audienceParts challenge.audience).1] <+: buf.drop 0 ∧
      bytesBE 32 (audienceParts challenge.audience).2 <+: buf.drop 1 ∧
      bytesBE 8 challenge.timestamp.secs.toBitVec <+: buf.drop 33 ∧
      bytesBE 16 challenge.nonce.bytes <+: buf.drop 41 := by
  rw [← drop_zero (l := buf)]
  simp only [encodeFields, append_isPrefix_drop, append_nil, length_bytesBE,
    length_singleton, drop_drop, Nat.zero_add]

/-- The audience of a tag and a value. -/
def Challenge.audienceOf (tag : UInt8) (value : BitVec (8 * 32)) : Except DecodeError Audience :=
  match tag with
  | 0x00 => .ok (.known ⟨value⟩)
  | 0x01 => .ok (.discover ⟨value⟩)
  | tag => .error (.invalidEnumTag tag "Audience")

theorem Challenge.audienceOf_eq_ok {tag : UInt8} {value : BitVec (8 * 32)} {audience : Audience} :
    audienceOf tag value = .ok audience ↔ audienceParts audience = (tag, value) := by
  refine ⟨fun decoded => ?_, fun same => ?_⟩
  · unfold audienceOf at decoded
    split at decoded
    · rw [← Except.ok.inj decoded]
      rfl
    · rw [← Except.ok.inj decoded]
      rfl
    · exact nomatch decoded
  · cases audience with
    | known id | discover id =>
      obtain ⟨rfl, rfl⟩ := Prod.mk.inj same
      rfl

theorem Challenge.tryDecodeFields_eq (buf : List UInt8) : tryDecodeFields buf = (do
    Decode.ensure (fieldsSize ≤ buf.length) (.messageTooShort "Challenge" fieldsSize buf.length)
    let tag ← Decode.u8 buf 0
    let value ← Decode.array 32 buf 1
    let audience ← audienceOf tag value
    let timestamp ← Decode.u64 buf 33
    let nonce ← Decode.array 16 buf 41
    pure (⟨audience, ⟨timestamp⟩, ⟨nonce⟩⟩, fieldsSize)) := by
  unfold tryDecodeFields
  congr 1
  funext _
  congr 1
  funext tag
  congr 1
  funext value
  unfold audienceOf
  split <;> rfl

/-- **The fields of a challenge decode** exactly where they stand at the front of the buffer. -/
theorem Challenge.tryDecodeFields_eq_ok {buf : List UInt8} {challenge : Challenge} {size : Nat} :
    tryDecodeFields buf = .ok (challenge, size) ↔
      challenge.encodeFields <+: buf ∧ size = fieldsSize := by
  rw [encodeFields_isPrefix, tryDecodeFields_eq]
  simp only [bind_eq_ok, ensure_eq_ok, u8_eq_ok, audienceOf_eq_ok,
    array_eq_ok (n := 32) (by decide), array_eq_ok (n := 16) (by decide),
    u64_eq_ok]
  constructor
  · rintro ⟨_, _, tag, tagAt, value, valueAt, audience, parts, time, timeAt, nonce, nonceAt, done⟩
    obtain ⟨rfl, rfl⟩ := Prod.mk.inj (Except.ok.inj done)
    refine ⟨⟨?_, ?_, timeAt, nonceAt⟩, rfl⟩
    · rw [parts]
      exact tagAt
    · rw [parts]
      exact valueAt
  · rintro ⟨⟨tagAt, valueAt, timeAt, nonceAt⟩, isSize⟩
    have fits := isPrefix_drop_length (.inl (by rw [length_bytesBE]; decide)) nonceAt
    rw [length_bytesBE] at fits
    exact ⟨(), fits, _, tagAt, _, valueAt, _, rfl, _, timeAt, _, nonceAt, by rw [isSize]; rfl⟩

theorem Challenge.length_encodeFields (challenge : Challenge) :
    challenge.encodeFields.length = fieldsSize := by
  simp [encodeFields, fieldsSize]

theorem Response.encodeFields_isPrefix {response : Response} {buf : List UInt8} :
    response.encodeFields <+: buf ↔ bytesBE 32 response.challengeDigest.bytes <+: buf.drop 0 ∧
      bytesBE 8 response.serverTimestamp.secs.toBitVec <+: buf.drop 32 := by
  rw [← drop_zero (l := buf)]
  simp only [encodeFields, append_isPrefix_drop, append_nil, length_bytesBE, drop_drop,
    Nat.zero_add]

/-- **The fields of a response decode** exactly where they stand at the front of the buffer. -/
theorem Response.tryDecodeFields_eq_ok {buf : List UInt8} {response : Response} {size : Nat} :
    tryDecodeFields buf = .ok (response, size) ↔ response.encodeFields <+: buf ∧ size = fieldsSize := by
  rw [encodeFields_isPrefix]
  simp only [tryDecodeFields, bind_eq_ok, ensure_eq_ok, array_eq_ok (n := 32) (by decide),
    u64_eq_ok]
  constructor
  · rintro ⟨_, _, digest, digestAt, time, timeAt, done⟩
    obtain ⟨rfl, rfl⟩ := Prod.mk.inj (Except.ok.inj done)
    exact ⟨⟨digestAt, timeAt⟩, rfl⟩
  · rintro ⟨⟨digestAt, timeAt⟩, isSize⟩
    have fits := isPrefix_drop_length (.inl (by rw [length_bytesBE]; decide)) timeAt
    rw [length_bytesBE] at fits
    exact ⟨(), fits, _, digestAt, _, timeAt, by rw [isSize]; rfl⟩

theorem Response.length_encodeFields (response : Response) :
    response.encodeFields.length = fieldsSize := by
  simp [encodeFields, fieldsSize]

theorem challenge_laws : CodecLaws Challenge fun _ => True where
  schemaSize := rfl
  fields_eq_ok buf challenge size := by
    rw [show (EncodeFields.encodeFields challenge).length = Challenge.fieldsSize from
      challenge.length_encodeFields]
    exact Challenge.tryDecodeFields_eq_ok.trans (true_and _ ▸ Iff.rfl)
  minSignedSize_le challenge issuer _ := by
    show 4 + 1 + 32 + Challenge.fieldsSize + 64 ≤ _
    rw [Signed.toSign, length_append, Signed.length_header,
      show (EncodeFields.encodeFields challenge).length = Challenge.fieldsSize from
        challenge.length_encodeFields]
    exact le_refl _

theorem response_laws : CodecLaws Response fun _ => True where
  schemaSize := rfl
  fields_eq_ok buf response size := by
    rw [show (EncodeFields.encodeFields response).length = Response.fieldsSize from
      response.length_encodeFields]
    exact Response.tryDecodeFields_eq_ok.trans (true_and _ ▸ Iff.rfl)
  minSignedSize_le response issuer _ := by
    show 4 + 1 + 32 + Response.fieldsSize + 64 ≤ _
    rw [Signed.toSign, length_append, Signed.length_header,
      show (EncodeFields.encodeFields response).length = Response.fieldsSize from
        response.length_encodeFields]
    exact le_refl _

theorem preamble_challenge_ne_response : Signed.preamble Challenge ≠ Signed.preamble Response := by
  decide

/-! ### Decoded messages -/

/-- The signed part of a decoded message is framed. -/
def HandshakeMessage.Framed : HandshakeMessage → Prop
  | signedChallenge signed => signed.Framed
  | signedResponse signed => signed.Framed
  | rejection _ => True

theorem HandshakeMessage.tryDecode_framed [Ed25519] {bytes : List UInt8} {message : HandshakeMessage}
    (decoded : tryDecode bytes = .ok message) : message.Framed := by
  unfold tryDecode at decoded
  obtain ⟨_, -, decoded⟩ := bind_eq_ok.mp decoded
  obtain ⟨_, -, decoded⟩ := bind_eq_ok.mp decoded
  split at decoded
  · obtain ⟨signed, isSigned, done⟩ := bind_eq_ok.mp decoded
    obtain rfl := Except.ok.inj done
    exact Signed.tryDecode_framed isSigned
  · obtain ⟨signed, isSigned, done⟩ := bind_eq_ok.mp decoded
    obtain rfl := Except.ok.inj done
    exact Signed.tryDecode_framed isSigned
  · obtain ⟨reply, -, done⟩ := bind_eq_ok.mp decoded
    obtain rfl := Except.ok.inj done
    exact trivial
  · exact nomatch decoded
  · exact nomatch decoded

end Subduction
