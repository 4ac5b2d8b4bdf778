/-
**The codec of ephemeral messages.**

A signed payload is its own wire form. The control messages are the schema, a tag and a list of topics
that is counted in two bytes; what follows the list is refused. The decoder of signed payloads ignores
what follows.

* **`EphemeralPayload.tryDecodeFields_eq_ok`** — the fields of a payload decode where they stand at the
  front of the buffer.
* **`EphemeralMessage.tryDecode_eq_ok`** — the bytes that are accepted for a message.
* **`EphemeralMessage.roundTrip_iff_and_accepted`**.
-/

import Subduction.Connection.Codec
import Subduction.Ephemeral.Message

set_option linter.unusedSectionVars false

namespace Subduction

open Decode LawfulBijou64 List

/-- `Topic::as_bytes`. -/
def Topic.asBytes (topic : Topic) : List UInt8 := bytesBE 32 topic.bytes

@[simp] theorem Topic.length_asBytes (topic : Topic) : topic.asBytes.length = 32 :=
  length_bytesBE 32 _

namespace EphemeralMessage

/-! ### Encoding -/

/-- `EPHEMERAL_SCHEMA`: `SUE` and version zero. -/
def ephemeralSchema : List UInt8 := [0x53, 0x55, 0x45, 0x00]

/-- `CONTROL_HEADER_SIZE`. -/
def controlHeaderSize : Nat := 4 + 1

/-- The tag of a message: the discriminant of the signed payload, or that of a control message. -/
def tag : EphemeralMessage → UInt8
  | ephemeral _ => 0x00
  | subscribe _ => 0x01
  | unsubscribe _ => 0x02
  | subscribeRejected _ => 0x03

/-- `encode_topic_list`, without the assertion of debug builds: the count is cut to 16 bits. -/
def encodeTopicList (topics : NonEmpty Topic) : List UInt8 :=
  encodeCount 2 topics.toList.length ++ topics.toList.flatMap Topic.asBytes

def encodeControl (tag : UInt8) (topics : NonEmpty Topic) : List UInt8 :=
  ephemeralSchema ++ tag :: encodeTopicList topics

/-- `EphemeralMessage::encode`. -/
def encode : EphemeralMessage → List UInt8
  | ephemeral signed => signed.bytes
  | subscribe topics => encodeControl 0x01 topics
  | unsubscribe topics => encodeControl 0x02 topics
  | subscribeRejected topics => encodeControl 0x03 topics

/-- `EphemeralMessage::encoded_size`. -/
def encodedSize : EphemeralMessage → Nat
  | ephemeral signed => signed.bytes.length
  | subscribe topics | unsubscribe topics | subscribeRejected topics =>
    controlHeaderSize + 2 + topics.toList.length * 32

/-! ### Decoding -/

/-- `read_u16`. -/
def readU16 (buf : List UInt8) : Cursor DecodeError UInt16 :=
  .reading fun offset => Except.map (·, 2) <|
    if offset + 2 ≤ buf.length then .ok (UInt16.ofBitVec (ofBytesBE 2 ((buf.drop offset).take 2)))
    else .error (.messageTooShort "u16" (offset + 2) buf.length)

/-- `read_array`. -/
def readArray (n : Nat) (buf : List UInt8) : Cursor DecodeError (BitVec (8 * n)) :=
  .reading fun offset => Except.map (·, n) <|
    if offset + n ≤ buf.length then .ok (ofBytesBE n ((buf.drop offset).take n))
    else .error (.messageTooShort "array" (offset + n) buf.length)

/-- A `Topic` from `read_array`. -/
def readTopic (buf : List UInt8) : Cursor DecodeError Topic := do
  let bytes ← readArray 32 buf
  pure ⟨bytes⟩

/-- The topics of `decode_topic_list`. -/
def readTopicList (payload : List UInt8) : Cursor DecodeError (NonEmpty Topic) := do
  let count ← readU16 payload
  if count.toNat = 0 then throw (.messageTooShort "EphemeralTopicList" (2 + 32) payload.length)
  else do
    let first ← readTopic payload
    let rest ← (readTopic payload).times (count.toNat - 1)
    pure ⟨first, rest⟩

/-- `decode_topic_list`: the list, and nothing behind it. -/
def decodeTopicList (payload : List UInt8) : Except DecodeError (NonEmpty Topic) := do
  let (topics, offset) ← (readTopicList payload).run 0
  Decode.ensure (offset = payload.length) (.sizeMismatch offset payload.length)
  pure topics

/-- The control branch of `decode_message`. -/
def decodeControl (bytes : List UInt8) (typeName : String) (make : NonEmpty Topic → EphemeralMessage) :
    Except DecodeError EphemeralMessage := do
  let payload := bytes.drop controlHeaderSize
  let minSize := 2 + 32
  Decode.ensure (minSize ≤ payload.length)
    (.messageTooShort typeName (controlHeaderSize + minSize) bytes.length)
  let topics ← decodeTopicList payload
  pure (make topics)

section Decode

variable [Bijou64Codec] [Ed25519]

/-- `decode_message`, behind the schema. -/
def decodeTagged (bytes : List UInt8) (tag : UInt8) : Except DecodeError EphemeralMessage :=
  match tag with
  | 0x00 => (Signed.tryDecode bytes).map ephemeral
  | 0x01 => decodeControl bytes "EphemeralSubscribe" subscribe
  | 0x02 => decodeControl bytes "EphemeralUnsubscribe" unsubscribe
  | 0x03 => decodeControl bytes "EphemeralSubscribeRejected" subscribeRejected
  | tag => .error (.invalidEnumTag tag "EphemeralMessage")

/-- `EphemeralMessage::try_decode`. -/
def tryDecode (bytes : List UInt8) : Except DecodeError EphemeralMessage := do
  Decode.ensure (controlHeaderSize ≤ bytes.length)
    (.messageTooShort "EphemeralMessage" controlHeaderSize bytes.length)
  Decode.ensure (bytes.take 4 = ephemeralSchema) (.invalidSchema ephemeralSchema (bytes.take 4))
  match bytes[4]? with
  | none => .error (.messageTooShort "EphemeralMessage tag" controlHeaderSize bytes.length)
  | some tag => decodeTagged bytes tag

end Decode

end EphemeralMessage

/-! ### The fields of a payload -/

def EphemeralPayload.Fits (payload : EphemeralPayload) : Prop := payload.payload.length < 2 ^ 64

instance (payload : EphemeralPayload) : Decidable payload.Fits :=
  inferInstanceAs (Decidable (_ < _))

namespace EphemeralPayload

variable [Bijou64Codec] [LawfulBijou64]

theorem encodeFields_isPrefix {payload : EphemeralPayload} {buf : List UInt8} :
    EncodeFields.encodeFields payload <+: buf ↔ bytesBE 32 payload.id.bytes <+: buf.drop 0 ∧
      bytesBE 8 payload.nonce.toBitVec <+: buf.drop 32 ∧
      bytesBE 8 payload.timestamp.secs.toBitVec <+: buf.drop 40 ∧
      Bijou64.encode (UInt64.ofNat payload.payload.length) <+: buf.drop 48 ∧
      payload.payload <+:
        buf.drop (48 + (Bijou64.encode (UInt64.ofNat payload.payload.length)).length) := by
  rw [← drop_zero (l := buf)]
  simp only [EncodeFields.encodeFields, append_isPrefix_drop, and_assoc, length_append,
    length_bytesBE, drop_drop, Nat.zero_add]

theorem length_encodeFields (payload : EphemeralPayload) :
    (EncodeFields.encodeFields payload).length =
      48 + (Bijou64.encode (UInt64.ofNat payload.payload.length)).length + payload.payload.length := by
  simp only [EncodeFields.encodeFields, length_append, length_bytesBE]

/-- **The header of a payload is read** where the fields before the payload stand and enough bytes
follow. -/
theorem tryDecodeWithOffset_eq_ok {buf : List UInt8} (header : EphemeralPayloadHeader) {offset : Nat} :
    EphemeralPayloadHeader.tryDecodeWithOffset buf = .ok (header, offset) ∧
        offset + header.payloadLen ≤ buf.length ↔
      header.payloadLen < 2 ^ 64 ∧
      bytesBE 32 header.id.bytes <+: buf.drop 0 ∧
      bytesBE 8 header.nonce.toBitVec <+: buf.drop 32 ∧
      bytesBE 8 header.timestamp.secs.toBitVec <+: buf.drop 40 ∧
      Bijou64.encode (UInt64.ofNat header.payloadLen) <+: buf.drop 48 ∧
      offset = 48 + (Bijou64.encode (UInt64.ofNat header.payloadLen)).length ∧
      offset + header.payloadLen ≤ buf.length := by
  simp only [EphemeralPayloadHeader.tryDecodeWithOffset, bind_eq_ok, ensure_eq_ok, Prod.exists,
    array_eq_ok (n := 32) (by decide), u64_eq_ok, bijou64_eq_ok]
  constructor
  · rintro ⟨⟨_, _, id, idAt, nonce, nonceAt, timestamp, timestampAt, size, _, ⟨sizeAt, rfl⟩, _, _, _, _,
      done⟩, enough⟩
    obtain ⟨rfl, rfl⟩ := Prod.mk.inj (Except.ok.inj done)
    dsimp only
    rw [UInt64.ofNat_toNat]
    exact ⟨size.toNat_lt, idAt, nonceAt, timestampAt, sizeAt, rfl, enough⟩
  · rintro ⟨small, idAt, nonceAt, timestampAt, sizeAt, rfl, enough⟩
    have size : (UInt64.ofNat header.payloadLen).toNat = header.payloadLen :=
      UInt64.toNat_ofNat_of_lt' small
    have sizePos := encode_pos (UInt64.ofNat header.payloadLen)
    refine ⟨⟨(), ?_, _, idAt, _, nonceAt, _, timestampAt, _, _, ⟨sizeAt, rfl⟩, (), ?_, (), ?_, ?_⟩, enough⟩
    · unfold ephemeralPayloadMinFieldsSize
      omega
    · unfold usizeMax
      omega
    · rw [size]
      exact (Nat.min_le_left _ _).trans enough
    · rw [size]
      rfl

theorem tryDecodeFields_eq_ok {buf : List UInt8} {payload : EphemeralPayload} {size : Nat} :
    EphemeralPayload.tryDecodeFields buf = .ok (payload, size) ↔
      payload.Fits ∧ EncodeFields.encodeFields payload <+: buf ∧
        size = (EncodeFields.encodeFields payload).length := by
  rw [encodeFields_isPrefix, length_encodeFields]
  simp only [EphemeralPayload.tryDecodeFields, bind_eq_ok, ensure_eq_ok, Prod.exists]
  constructor
  · rintro ⟨header, offset, isHeader, _, enough, done⟩
    obtain ⟨rfl, rfl⟩ := Prod.mk.inj (Except.ok.inj done)
    obtain ⟨small, idAt, nonceAt, timestampAt, sizeAt, rfl, _⟩ :=
      (tryDecodeWithOffset_eq_ok header).mp ⟨isHeader, enough⟩
    set start := 48 + (Bijou64.encode (UInt64.ofNat header.payloadLen)).length
    have length : ((buf.drop start).take header.payloadLen).length = header.payloadLen := by
      rw [length_take, length_drop]
      omega
    simp only [Fits, length]
    exact ⟨small, ⟨idAt, nonceAt, timestampAt, sizeAt, take_prefix _ _⟩, rfl⟩
  · rintro ⟨small, ⟨idAt, nonceAt, timestampAt, sizeAt, payloadAt⟩, rfl⟩
    have sizePos := encode_pos (UInt64.ofNat payload.payload.length)
    have sizeEnd := isPrefix_drop_length (.inl sizePos) sizeAt
    have enough := isPrefix_drop_length (.inr sizeEnd) payloadAt
    refine ⟨payload.header, _, ((tryDecodeWithOffset_eq_ok payload.header).mpr
      ⟨small, idAt, nonceAt, timestampAt, sizeAt, rfl, enough⟩).1, (), enough, ?_⟩
    show Except.ok _ = Except.ok _
    rw [header, ← prefix_iff_eq_take.mp payloadAt]

theorem length_preamble : (Signed.preamble EphemeralPayload).length = 5 := rfl

theorem laws : CodecLaws EphemeralPayload EphemeralPayload.Fits where
  schemaSize := rfl
  fields_eq_ok _ _ _ := tryDecodeFields_eq_ok
  minSignedSize_le payload issuer _ := by
    have sizePos := encode_pos (UInt64.ofNat payload.payload.length)
    show 4 + 1 + 32 + ephemeralPayloadMinFieldsSize + 64 ≤ _
    rw [Signed.toSign, Signed.header, length_append, length_append, length_preamble,
      length_bytesBE, length_encodeFields, ephemeralPayloadMinFieldsSize]
    omega

end EphemeralPayload

/-! ### What is accepted -/

namespace EphemeralMessage

section Control

variable {buf : List UInt8}

theorem readU16_reads :
    Reads buf (readU16 buf) (Written (fun _ => True) fun number => encodeCount 2 number.toNat) := by
  refine Reads.fixed (fun start number => ?_) fun _ => length_encodeCount 2 _
  have count : encodeCount 2 number.toNat = bytesBE 2 number.toBitVec := by
    simp [encodeCount]
  rw [count, bytesBE_isPrefix_drop two_pos]
  split <;> simp [*, ← UInt16.toBitVec_inj]

theorem readArray_reads {n : Nat} (positive : 0 < n) :
    Reads buf (readArray n buf) (Written (fun _ => True) (bytesBE n)) := by
  refine Reads.fixed (fun start number => ?_) (length_bytesBE n)
  rw [bytesBE_isPrefix_drop positive]
  split <;> simp [*]

theorem readTopic_reads : Reads buf (readTopic buf) (Written (fun _ => True) Topic.asBytes) :=
  (readArray_reads (by decide)).wrapped (fun _ => rfl) fun _ => rfl

def TopicsFit (topics : NonEmpty Topic) : Prop := topics.toList.length < 2 ^ 16

theorem readTopicList_reads :
    Reads buf (readTopicList buf) (Written TopicsFit encodeTopicList) := by
  have next (count : UInt16) : Reads buf (if count.toNat = 0 then
        throw (.messageTooShort "EphemeralTopicList" (2 + 32) buf.length)
      else do
        let first ← readTopic buf
        let rest ← (readTopic buf).times (count.toNat - 1)
        pure ⟨first, rest⟩ : Cursor DecodeError (NonEmpty Topic))
      fun topics form => topics.toList.length = count.toNat ∧
        form = topics.toList.flatMap Topic.asBytes := by
    by_cases none : count.toNat = 0
    · rw [if_pos none]
      refine (Reads.throw _).congr fun topics form => ⟨False.elim, fun ⟨length, _⟩ => ?_⟩
      rw [none] at length
      cases length
    · rw [if_neg none]
      refine (readTopic_reads.bind fun first => (readTopic_reads.times_written (count.toNat - 1)).bind
        fun rest => Reads.pure (⟨first, rest⟩ : NonEmpty Topic)).congr fun topics form => ?_
      constructor
      · rintro ⟨first, _, _, ⟨_, rfl⟩, ⟨rest, _, _, ⟨length, _, rfl⟩, ⟨rfl, rfl⟩, rfl⟩, rfl⟩
        refine ⟨?_, by rw [append_nil]; rfl⟩
        show rest.length + 1 = _
        omega
      · rintro ⟨length, rfl⟩
        have restLength : topics.tail.length = count.toNat - 1 := by
          rw [← length]
          rfl
        refine ⟨topics.head, _, _, ⟨trivial, rfl⟩, ⟨topics.tail, _, [],
          ⟨restLength, fun _ _ => trivial, rfl⟩, ⟨rfl, rfl⟩, rfl⟩, ?_⟩
        rw [append_nil]
        rfl
  refine (readU16_reads.bind next).congr fun topics form => ?_
  constructor
  · rintro ⟨count, _, _, ⟨_, rfl⟩, ⟨length, rfl⟩, rfl⟩
    refine ⟨?_, by rw [encodeTopicList, length]⟩
    rw [TopicsFit, length]
    exact count.toNat_lt
  · rintro ⟨small, rfl⟩
    obtain ⟨count, length⟩ : ∃ count : UInt16, topics.toList.length = count.toNat :=
      ⟨UInt16.ofNat _, (UInt16.toNat_ofNat_of_lt' small).symm⟩
    exact ⟨count, _, _, ⟨trivial, rfl⟩, ⟨length, rfl⟩, by rw [encodeTopicList, length]⟩

theorem decodeTopicList_eq_ok {payload : List UInt8} {topics : NonEmpty Topic} :
    decodeTopicList payload = .ok topics ↔ TopicsFit topics ∧ payload = encodeTopicList topics := by
  simp only [decodeTopicList, bind_eq_ok, ensure_eq_ok, Prod.exists,
    readTopicList_reads 0 (Nat.zero_le _)]
  constructor
  · rintro ⟨found, _, ⟨_, ⟨small, rfl⟩, stands, rfl⟩, _, whole, done⟩
    obtain rfl := Except.ok.inj done
    rw [Nat.zero_add] at whole
    exact ⟨small, (stands.eq_of_length whole).symm⟩
  · rintro ⟨small, rfl⟩
    exact ⟨topics, _, ⟨_, ⟨small, rfl⟩, prefix_rfl, rfl⟩, (), Nat.zero_add _, rfl⟩

theorem length_encodeTopicList (topics : NonEmpty Topic) :
    (encodeTopicList topics).length = 2 + topics.toList.length * 32 := by
  simp [encodeTopicList]

theorem decodeControl_eq_ok {byte : UInt8} {payload : List UInt8} {typeName : String}
    {make : NonEmpty Topic → EphemeralMessage} {message : EphemeralMessage} :
    decodeControl (ephemeralSchema ++ byte :: payload) typeName make = .ok message ↔
      ∃ topics, message = make topics ∧ TopicsFit topics ∧ payload = encodeTopicList topics := by
  simp only [decodeControl, bind_eq_ok, ensure_eq_ok, decodeTopicList_eq_ok]
  have dropped : (ephemeralSchema ++ byte :: payload).drop controlHeaderSize = payload := rfl
  rw [dropped]
  constructor
  · rintro ⟨_, _, topics, ⟨small, whole⟩, done⟩
    exact ⟨topics, (Except.ok.inj done).symm, small, whole⟩
  · rintro ⟨topics, rfl, small, rfl⟩
    refine ⟨(), ?_, topics, ⟨small, rfl⟩, rfl⟩
    rw [length_encodeTopicList, NonEmpty.toList, length_cons]
    omega

end Control

theorem length_encode (message : EphemeralMessage) : message.encode.length = message.encodedSize := by
  have control (byte : UInt8) (topics : NonEmpty Topic) : (encodeControl byte topics).length =
      controlHeaderSize + 2 + topics.toList.length * 32 := by
    rw [encodeControl, length_append, length_cons, length_encodeTopicList]
    show 4 + _ = 4 + 1 + 2 + _
    omega
  cases message with
  | ephemeral signed => rfl
  | subscribe topics => exact control _ _
  | unsubscribe topics => exact control _ _
  | subscribeRejected topics => exact control _ _

section Accepted

variable [Bijou64Codec] [LawfulBijou64] [Ed25519]

/-- **What the wire format can hold**: a signed payload as it was sealed or decoded, or at most 65535
topics. -/
def Fits : EphemeralMessage → Prop
  | ephemeral signed => Signed.Encoded EphemeralPayload.Fits signed
  | subscribe topics | unsubscribe topics | subscribeRejected topics => TopicsFit topics

/-- The bytes that are accepted for a message: its encoding, and behind a signed payload any others. -/
def Accepts (bytes : List UInt8) : EphemeralMessage → Prop
  | ephemeral signed => signed.bytes <+: bytes
  | message => bytes = message.encode

theorem tryDecode_signed_eq_ok {bytes : List UInt8} {signed : Signed EphemeralPayload} :
    (Signed.tryDecode bytes : Except DecodeError (Signed EphemeralPayload)) = .ok signed ↔
      Signed.Encoded EphemeralPayload.Fits signed ∧ signed.bytes <+: bytes := by
  unfold Signed.tryDecode
  constructor
  · intro decoded
    cases result : Signed.tryDecodePrefix (α := EphemeralPayload) bytes with
    | error failure =>
      rw [result] at decoded
      cases decoded
    | ok read =>
      rw [result] at decoded
      obtain rfl := Except.ok.inj decoded
      obtain ⟨encoded, stands, _⟩ := (Signed.tryDecodePrefix_iff EphemeralPayload.laws).mp result
      exact ⟨encoded, stands⟩
  · rintro ⟨encoded, stands⟩
    rw [(Signed.tryDecodePrefix_iff EphemeralPayload.laws).mpr ⟨encoded, stands, rfl⟩]
    rfl

theorem exists_of_encoded {signed : Signed EphemeralPayload}
    (encoded : Signed.Encoded EphemeralPayload.Fits signed) :
    ∃ rest, signed.bytes = ephemeralSchema ++ 0x00 :: rest := by
  obtain ⟨_, payload, _, whole⟩ := encoded
  exact ⟨_, whole⟩

theorem decodeTagged_eq_ok {byte : UInt8} {payload : List UInt8} {message : EphemeralMessage} :
    decodeTagged (ephemeralSchema ++ byte :: payload) byte = .ok message ↔
      message.tag = byte ∧ message.Fits ∧ Accepts (ephemeralSchema ++ byte :: payload) message := by
  have control {make : NonEmpty Topic → EphemeralMessage}
      (shape : ∀ topics, (make topics).tag = byte ∧ ((make topics).Fits ↔ TopicsFit topics) ∧
        (Accepts (ephemeralSchema ++ byte :: payload) (make topics) ↔
          ephemeralSchema ++ byte :: payload = encodeControl byte topics))
      (only : message.tag = byte → ∃ topics, message = make topics) (typeName : String) :
      decodeControl (ephemeralSchema ++ byte :: payload) typeName make = .ok message ↔
        message.tag = byte ∧ message.Fits ∧
          Accepts (ephemeralSchema ++ byte :: payload) message := by
    rw [decodeControl_eq_ok]
    constructor
    · rintro ⟨topics, rfl, small, rfl⟩
      exact ⟨(shape topics).1, (shape topics).2.1.mpr small, (shape topics).2.2.mpr rfl⟩
    · rintro ⟨isTag, fits, accepts⟩
      obtain ⟨topics, rfl⟩ := only isTag
      refine ⟨topics, rfl, (shape topics).2.1.mp fits, ?_⟩
      exact List.cons.inj (append_cancel_left ((shape topics).2.2.mp accepts)) |>.2
  unfold decodeTagged
  split
  · cases decoded : (Signed.tryDecode (ephemeralSchema ++ 0x00 :: payload) :
        Except DecodeError (Signed EphemeralPayload)) with
    | error failure =>
      refine ⟨fun impossible => ?_, fun ⟨isTag, fits, accepts⟩ => ?_⟩
      · cases impossible
      · cases message with
        | ephemeral signed =>
          exact nomatch decoded.symm.trans (tryDecode_signed_eq_ok.mpr ⟨fits, accepts⟩)
        | _ => simp [tag] at isTag
    | ok found =>
      obtain ⟨encoded, stands⟩ := tryDecode_signed_eq_ok.mp decoded
      refine ⟨fun done => ?_, fun ⟨isTag, fits, accepts⟩ => ?_⟩
      · obtain rfl := Except.ok.inj done
        exact ⟨rfl, encoded, stands⟩
      · cases message with
        | ephemeral signed =>
          have other := tryDecode_signed_eq_ok.mpr ⟨fits, accepts⟩
          rw [Except.ok.inj (decoded.symm.trans other)]
          rfl
        | _ => simp [tag] at isTag
  · refine control (fun _ => ⟨rfl, Iff.rfl, Iff.rfl⟩) (fun isTag => ?_) _
    cases message with
    | subscribe topics => exact ⟨topics, rfl⟩
    | _ => simp [tag] at isTag
  · refine control (fun _ => ⟨rfl, Iff.rfl, Iff.rfl⟩) (fun isTag => ?_) _
    cases message with
    | unsubscribe topics => exact ⟨topics, rfl⟩
    | _ => simp [tag] at isTag
  · refine control (fun _ => ⟨rfl, Iff.rfl, Iff.rfl⟩) (fun isTag => ?_) _
    cases message with
    | subscribeRejected topics => exact ⟨topics, rfl⟩
    | _ => simp [tag] at isTag
  · refine ⟨fun impossible => ?_, ?_⟩
    · cases impossible
    · rintro ⟨rfl, _⟩
      cases message <;> simp_all [tag]

theorem Accepts.exists_payload {bytes : List UInt8} {message : EphemeralMessage} (fits : message.Fits)
    (accepts : Accepts bytes message) :
    ∃ payload, bytes = ephemeralSchema ++ message.tag :: payload := by
  cases message with
  | ephemeral signed =>
    obtain ⟨front, whole⟩ := exists_of_encoded fits
    obtain ⟨rest, rfl⟩ := accepts
    refine ⟨front ++ rest, ?_⟩
    rw [whole, append_assoc]
    rfl
  | subscribe topics => exact ⟨_, accepts⟩
  | unsubscribe topics => exact ⟨_, accepts⟩
  | subscribeRejected topics => exact ⟨_, accepts⟩

theorem tryDecode_eq_ok {bytes : List UInt8} {message : EphemeralMessage} :
    tryDecode bytes = .ok message ↔ message.Fits ∧ Accepts bytes message := by
  simp only [tryDecode, bind_eq_ok, ensure_eq_ok]
  constructor
  · rintro ⟨_, enough, _, schemaAt, done⟩
    obtain ⟨byte, payload, rest⟩ : ∃ byte payload, bytes.drop 4 = byte :: payload := by
      refine exists_cons_of_length_pos ?_
      rw [length_drop]
      exact Nat.sub_pos_of_lt enough
    have whole : bytes = ephemeralSchema ++ byte :: payload := by
      rw [← schemaAt, ← rest, take_append_drop]
    rw [whole] at done ⊢
    exact (decodeTagged_eq_ok.mp done).2
  · rintro ⟨fits, accepts⟩
    obtain ⟨payload, rfl⟩ := accepts.exists_payload fits
    refine ⟨(), ?_, (), rfl, decodeTagged_eq_ok.mpr ⟨rfl, fits, accepts⟩⟩
    rw [length_append, length_cons]
    show 5 ≤ 4 + _
    omega

theorem accepts_encode (message : EphemeralMessage) : Accepts message.encode message := by
  cases message with
  | ephemeral signed => exact prefix_rfl
  | _ => rfl

/-- **The codec in both directions.** A message is decoded from its encoding exactly when it fits the
wire format, and the encoding has the size that is computed beforehand. Accepted bytes are the encoding
of the result; only behind a signed payload others may follow, which are ignored. -/
theorem roundTrip_iff_and_accepted :
    (∀ message : EphemeralMessage, message.encode.length = message.encodedSize ∧
      (tryDecode message.encode = .ok message ↔ message.Fits)) ∧
    ∀ (bytes : List UInt8) (message : EphemeralMessage), tryDecode bytes = .ok message →
      message.Fits ∧ message.encode <+: bytes ∧
        (message.encode = bytes ∨ ∃ signed, message = ephemeral signed) := by
  refine ⟨fun message => ⟨length_encode message, ?_⟩, fun bytes message decoded => ?_⟩
  · rw [tryDecode_eq_ok]
    exact ⟨fun ⟨fits, _⟩ => fits, fun fits => ⟨fits, accepts_encode message⟩⟩
  · obtain ⟨fits, accepts⟩ := tryDecode_eq_ok.mp decoded
    refine ⟨fits, ?_⟩
    cases message with
    | ephemeral signed => exact ⟨accepts, .inr ⟨signed, rfl⟩⟩
    | subscribe topics | unsubscribe topics | subscribeRejected topics =>
      obtain rfl : bytes = _ := accepts
      exact ⟨List.prefix_rfl, .inl rfl⟩

/-- **A message with 65536 topics does not decode**: its list is counted as empty. -/
theorem tryDecode_of_65536_topics {topics : NonEmpty Topic} (count : topics.toList.length = 2 ^ 16)
    (message : EphemeralMessage) : tryDecode (subscribe topics).encode ≠ .ok message := by
  intro decoded
  obtain ⟨fits, accepts⟩ := tryDecode_eq_ok.mp decoded
  obtain ⟨payload, same⟩ := accepts.exists_payload fits
  have isTag : 0x01 = message.tag := (List.cons.inj (append_cancel_left same)).1
  cases message with
  | subscribe found =>
    have sizes := congrArg List.length (show (subscribe topics).encode = (subscribe found).encode
      from accepts)
    rw [length_encode, length_encode, encodedSize, encodedSize, count] at sizes
    have small : found.toList.length < 2 ^ 16 := fits
    omega
  | _ => simp [tag] at isTag

end Accepted

def sealedGreeting [Bijou64Codec] : Signed EphemeralPayload :=
  Signed.sealPayload (signerOf 7) ⟨⟨1⟩, 5, ⟨100⟩, [104, 105]⟩

attribute [local instance] eightBytes eightBytes_lawful shownKeys

theorem fits_sealedGreeting : (ephemeral sealedGreeting).Fits := by
  have small : EphemeralPayload.Fits ⟨⟨1⟩, 5, ⟨100⟩, [104, 105]⟩ := by decide
  exact Signed.sealPayload_encoded rfl small

/-- **A subscription to 65536 topics is refused**, and a signed payload is accepted with one more byte. -/
theorem topics_refused_and_byte_ignored :
    (∀ message, tryDecode (subscribe ⟨⟨1⟩, List.replicate (2 ^ 16 - 1) ⟨1⟩⟩).encode ≠ .ok message) ∧
      tryDecode ((ephemeral sealedGreeting).encode ++ [0]) = .ok (ephemeral sealedGreeting) := by
  refine ⟨tryDecode_of_65536_topics ?_, tryDecode_eq_ok.mpr ⟨fits_sealedGreeting, List.prefix_append _ _⟩⟩
  rw [NonEmpty.toList, List.length_cons, List.length_replicate]
  decide

theorem roundTrip_iff_and_accepted_greeting :
    tryDecode (ephemeral sealedGreeting).encode = .ok (ephemeral sealedGreeting) ∧
      tryDecode (subscribe ⟨⟨1⟩, [⟨2⟩]⟩).encode = .ok (subscribe ⟨⟨1⟩, [⟨2⟩]⟩) := by
  have codec := @roundTrip_iff_and_accepted eightBytes eightBytes_lawful shownKeys
  refine ⟨(codec.1 _).2.mpr fits_sealedGreeting, (codec.1 _).2.mpr ?_⟩
  show 2 < 2 ^ 16
  decide

end EphemeralMessage

end Subduction
