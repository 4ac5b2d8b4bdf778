/-
**Signed payloads are self-delimiting.**

The size of a signed payload on the wire is found by decoding its fields. For every payload type
whose field codec is lawful, a prefix of the buffer decodes exactly when it is the wire form of a
signed payload: header, fields and signature tile the bytes that were consumed.

* **`Signed.tryDecodePrefix_iff`** — a prefix decodes exactly when it is the wire form of the value.
* **`Signed.partsAgree_iff`**.
-/

import Subduction.Crypto.Signed

set_option linter.unusedSectionVars false

namespace Subduction

open List

/-! ### Lawful payload types -/

/-- **The laws of a payload codec**: a value of the type is decoded exactly where its fields stand at
the front of the buffer, and no signed value is smaller than the declared minimum. `good` are the
values whose counts fit. -/
structure CodecLaws (α : Type) [DecodeFields α] (good : α → Prop) : Prop where
  schemaSize : (EncodeFields.schema α).length = 4
  fields_eq_ok : ∀ (buf : List UInt8) (value : α) (size : Nat),
    DecodeFields.tryDecodeFields buf = .ok (value, size) ↔
      good value ∧ EncodeFields.encodeFields value <+: buf ∧
        size = (EncodeFields.encodeFields value).length
  minSignedSize_le : ∀ (value : α) (issuer : VerifyingKey), good value →
    DecodeFields.minSignedSize α ≤ (Signed.toSign issuer value).length + 64

theorem CodecLaws.roundTrip {α : Type} [DecodeFields α] (laws : CodecLaws α fun _ => True) :
    Signed.RoundTrip α :=
  fun value => ⟨_, (laws.fields_eq_ok _ value _).mpr ⟨trivial, prefix_rfl, rfl⟩⟩

theorem looseCommit_laws [Bijou64Codec] [LawfulBijou64] :
    CodecLaws LooseCommit LooseCommit.CountsFit where
  schemaSize := by
    show ("STC".toUTF8.toList ++ [0]).length = 4
    decide +kernel
  fields_eq_ok buf commit size := by
    rw [LooseCommit.length_encodeFields]
    exact LooseCommit.tryDecodeFields_eq_ok
  minSignedSize_le commit issuer _ := by
    have blobSize := LawfulBijou64.encode_pos commit.blobMeta.sizeBytes
    have preambleSize : (Signed.preamble LooseCommit).length = 4 := by
      show ("STC".toUTF8.toList ++ [0] ++ []).length = 4
      decide +kernel
    show 4 + 32 + (LooseCommit.codecFixedFieldsSize + 1) + 64 ≤ _
    rw [Signed.toSign, Signed.header, length_append, length_append, preambleSize,
      length_bytesBE, LooseCommit.length_encodeFields, LooseCommit.fieldsSize, Bijou64.encodedLen]
    omega

theorem fragment_laws [Bijou64Codec] [LawfulBijou64] : CodecLaws Fragment Fragment.CountsFit where
  schemaSize := by
    show ("STF".toUTF8.toList ++ [0]).length = 4
    decide +kernel
  fields_eq_ok buf fragment size := by
    rw [Fragment.length_encodeFields]
    exact Fragment.tryDecodeFields_eq_ok
  minSignedSize_le fragment issuer _ := by
    have blobSize := LawfulBijou64.encode_pos fragment.summary.blobMeta.sizeBytes
    have preambleSize : (Signed.preamble Fragment).length = 4 := by
      show ("STF".toUTF8.toList ++ [0] ++ []).length = 4
      decide +kernel
    show 4 + 32 + (Fragment.codecFixedFieldsSize + 1) + 64 ≤ _
    rw [Signed.toSign, Signed.header, length_append, length_append, preambleSize,
      length_bytesBE, Fragment.length_encodeFields, Fragment.fieldsSize, Bijou64.encodedLen]
    omega

namespace Signed

variable {α : Type} [Ed25519] [DecodeFields α] {good : α → Prop}

/-- **The wire bytes are those of a signed value.** -/
def Encoded (good : α → Prop) (signed : Signed α) : Prop :=
  Ed25519.isKey signed.issuer.bytes = true ∧ ∃ value, good value ∧
      signed.bytes = toSign signed.issuer value ++ bytesBE 64 signed.signature.bytes

theorem sealPayload_encoded {signer : Signer} (key : Ed25519.isKey signer.verifyingKey.bytes = true)
    {value : α} (fits : good value) : Encoded good (sealPayload signer value) :=
  ⟨key, value, fits, rfl⟩

theorem tryDecodePrefix_iff (laws : CodecLaws α good) {bytes : List UInt8} {signed : Signed α}
    {size : Nat} :
    tryDecodePrefix bytes = .ok (signed, size) ↔
      Encoded good signed ∧ signed.bytes <+: bytes ∧ size = signed.bytes.length := by
  rw [tryDecodePrefix_eq_ok, decodeHeader_eq_ok]
  simp only [laws.fields_eq_ok]
  constructor
  · rintro ⟨⟨_, _, headerAt, key, value, _, ⟨fits, fieldsAt, rfl⟩, signatureAt, rfl⟩, bytesOf⟩
    have stands : toSign signed.issuer value ++ bytesBE 64 signed.signature.bytes <+: bytes := by
      rw [← drop_zero (l := bytes), toSign, append_isPrefix_drop, append_isPrefix_drop]
      simpa [length_append] using ⟨⟨headerAt, fieldsAt⟩, signatureAt⟩
    have total : (toSign signed.issuer value ++ bytesBE 64 signed.signature.bytes).length =
        (header α signed.issuer).length + (EncodeFields.encodeFields value).length + 64 := by
      rw [toSign, length_append, length_append, length_bytesBE]
    have whole : signed.bytes = toSign signed.issuer value ++ bytesBE 64 signed.signature.bytes := by
      rw [bytesOf, ← total, ← prefix_iff_eq_take.mp stands]
    exact ⟨⟨key, value, fits, whole⟩, whole ▸ stands, by rw [whole, total]⟩
  · rintro ⟨⟨key, value, fits, whole⟩, stands, rfl⟩
    have parts := stands
    rw [← drop_zero (l := bytes), whole, toSign, append_isPrefix_drop, append_isPrefix_drop] at parts
    have total : signed.bytes.length = (toSign signed.issuer value).length + 64 := by
      rw [whole, length_append, length_bytesBE]
    have minimal := laws.minSignedSize_le value signed.issuer fits
    refine ⟨⟨?_, laws.schemaSize, ?_, key, value, _, ⟨fits, ?_, rfl⟩, ?_, ?_⟩, ?_⟩
    · exact (minimal.trans_eq total.symm).trans stands.length_le
    · simpa using parts.1.1
    · simpa using parts.1.2
    · simpa [length_append] using parts.2
    · rw [total, toSign, length_append]
    · exact prefix_iff_eq_take.mp stands

theorem Encoded.length_pos {signed : Signed α} (encoded : Encoded good signed) :
    0 < signed.bytes.length := by
  obtain ⟨_, value, _, whole⟩ := encoded
  rw [whole, length_append, length_bytesBE]
  omega

theorem fieldsBytes_of_toSign (laws : CodecLaws α good) {signed : Signed α} {value : α}
    (whole : signed.bytes = toSign signed.issuer value ++ bytesBE 64 signed.signature.bytes) :
    signed.fieldsBytes = EncodeFields.encodeFields value := by
  have framed : signed.Framed := ⟨laws.schemaSize, _, whole⟩
  have payload : signed.payloadBytes = toSign signed.issuer value := by
    rw [payloadBytes, whole, length_append, length_bytesBE, Nat.add_sub_cancel, take_left]
  exact append_cancel_left (framed.payloadBytes_eq.symm.trans payload)

theorem tryVerify_of_toSign (laws : CodecLaws α good) {signed : Signed α} {value : α}
    (fits : good value)
    (whole : signed.bytes = toSign signed.issuer value ++ bytesBE 64 signed.signature.bytes) :
    DecodeFields.tryDecodeFields signed.fieldsBytes = .ok (value, signed.fieldsBytes.length) ∧
      signed.tryVerify.map VerifiedSignature.payload =
        if Ed25519.verifyStrict signed.issuer signed.payloadBytes signed.signature then .ok value
        else .error .invalidSignature := by
  have decodes : DecodeFields.tryDecodeFields signed.fieldsBytes =
      .ok (value, signed.fieldsBytes.length) := by
    rw [fieldsBytes_of_toSign laws whole]
    exact (laws.fields_eq_ok _ _ _).mpr ⟨fits, prefix_rfl, rfl⟩
  have payload : signed.tryDecodeTrustedPayload = .ok value := by
    rw [tryDecodeTrustedPayload, decodes]
    rfl
  refine ⟨decodes, ?_⟩
  by_cases valid : Ed25519.verifyStrict signed.issuer signed.payloadBytes signed.signature = true
  · have verified : signed.tryVerify = .ok ⟨signed, value, payload⟩ := tryVerify_eq_ok.mpr ⟨rfl, valid⟩
    rw [if_pos valid, verified]
    rfl
  · rw [if_neg valid, tryVerify, if_neg valid]
    rfl

/-- **A signer in good standing**: its key is one, and its own signatures verify. -/
structure Honest (signer : Signer) : Prop where
  isKey : Ed25519.isKey signer.verifyingKey.bytes = true
  verifies : ∀ bytes, Ed25519.verifyStrict signer.verifyingKey bytes (signer.sign bytes) = true

section

variable (laws : CodecLaws α good) {signer : Signer} (honest : Honest signer) (value : α) (fits : good value)

include laws honest value fits

theorem tryDecode_sealPayload :
    tryDecode (sealPayload signer value).bytes = .ok (sealPayload signer value) := by
  have encoded := sealPayload_encoded honest.isKey fits
  rw [tryDecode, (tryDecodePrefix_iff laws).mpr ⟨encoded, prefix_rfl, rfl⟩]
  rfl

theorem tryVerify_sealPayload : ∃ verified, (sealPayload signer value).tryVerify = .ok verified ∧
      verified.signed = sealPayload signer value ∧ verified.payload = value := by
  have valid : Ed25519.verifyStrict (sealPayload signer value).issuer
      (sealPayload signer value).payloadBytes (sealPayload signer value).signature = true := by
    rw [sealPayload_payloadBytes]
    exact honest.verifies _
  have sealed : (sealPayload signer value).bytes = toSign (sealPayload signer value).issuer value
      ++ bytesBE 64 (sealPayload signer value).signature.bytes := rfl
  have returns := (tryVerify_of_toSign laws fits sealed).2
  rw [if_pos valid] at returns
  cases verifies : (sealPayload signer value).tryVerify with
  | error error =>
    rw [verifies] at returns
    exact nomatch returns
  | ok verified =>
    rw [verifies] at returns
    exact ⟨verified, rfl, (tryVerify_eq_ok.mp verifies).1, Except.ok.inj returns⟩

end

/-- **Built from the parts of a sealed value**, a value has the same bytes, is decoded and verifies. -/
def PartsAgree (signer : Signer) (value : α) : Prop :=
  let sealed := sealPayload signer value
  let built := fromParts signer.verifyingKey sealed.signature value
  built.bytes = sealed.bytes ∧ tryDecode built.bytes = .ok built ∧
    ∃ verified, built.tryVerify = .ok verified ∧ verified.payload = value

/-! ### Signed payloads one after the other -/

/-- One signed payload at the cursor. -/
def readSigned (buf : List UInt8) : Cursor DecodeError (Signed α) :=
  Cursor.reading fun offset =>
    if offset ≤ buf.length then tryDecodePrefix (buf.drop offset)
    else .error (.bufferTooShort (.slice 0) offset 1 0)

theorem readSigned_reads (laws : CodecLaws α good) (buf : List UInt8) :
    Reads buf (readSigned (α := α) buf) (Written (Encoded good) Signed.bytes) := by
  refine Reads.reading fun start inside signed size => ?_
  rw [if_pos inside, tryDecodePrefix_iff laws]
  constructor
  · rintro ⟨encoded, stands, rfl⟩
    exact ⟨_, ⟨encoded, rfl⟩, stands, rfl⟩
  · rintro ⟨_, ⟨encoded, rfl⟩, stands, rfl⟩
    exact ⟨encoded, stands, rfl⟩

theorem flatMap_bytes_injOn (laws : CodecLaws α good) {first second : List (Signed α)}
    (firstEncoded : ∀ signed ∈ first, Encoded good signed)
    (secondEncoded : ∀ signed ∈ second, Encoded good signed)
    (same : first.flatMap Signed.bytes = second.flatMap Signed.bytes) : first = second := by
  refine flatMap_injOn_of_prefixFree ?_ ?_ firstEncoded secondEncoded same
  · intro buf one two oneEncoded twoEncoded oneAt twoAt
    have decodesOne := (tryDecodePrefix_iff laws).mpr ⟨oneEncoded, oneAt, rfl⟩
    have decodesTwo := (tryDecodePrefix_iff laws).mpr ⟨twoEncoded, twoAt, rfl⟩
    exact (Prod.mk.inj (Except.ok.inj (decodesOne.symm.trans decodesTwo))).1
  · intro signed encoded
    exact ne_nil_of_length_pos encoded.length_pos

/-- **Signed payloads are self-delimiting and verify exactly what they carry.** What was decoded from
a prefix decodes from these bytes alone, whatever follows; header, fields and signature tile them; and
verifying returns the value whose fields they are. Encoded values packed one after the other are read
back as exactly this list. -/
theorem signed_selfDelimiting (laws : CodecLaws α good) :
    (∀ (bytes extra : List UInt8) (signed : Signed α) (size : Nat),
      tryDecodePrefix bytes = .ok (signed, size) →
        tryDecodePrefix (bytes.take size ++ extra) = .ok (signed, size) ∧
        size ≤ bytes.length ∧ signed.bytes = bytes.take size ∧
        ∃ value : α, signed.bytes = header α signed.issuer ++ EncodeFields.encodeFields value
            ++ bytesBE 64 signed.signature.bytes ∧
          DecodeFields.tryDecodeFields signed.fieldsBytes = .ok (value, signed.fieldsBytes.length) ∧
          signed.tryVerify.map VerifiedSignature.payload =
            if Ed25519.verifyStrict signed.issuer signed.payloadBytes signed.signature then .ok value
            else .error .invalidSignature) ∧
    ∀ (values : List (Signed α)) (extra : List UInt8), (∀ signed ∈ values, Encoded good signed) →
      (Cursor.times (readSigned (values.flatMap Signed.bytes ++ extra)) values.length).run 0 =
        .ok (values, (values.flatMap Signed.bytes).length) ∧
      ∀ (count : Nat) (others : List (Signed α)),
        (Cursor.times (readSigned (values.flatMap Signed.bytes ++ extra)) count).run 0 =
          .ok (others, (values.flatMap Signed.bytes).length) → others = values := by
  constructor
  · intro bytes extra signed size decoded
    obtain ⟨encoded, stands, rfl⟩ := (tryDecodePrefix_iff laws).mp decoded
    have cut := List.prefix_iff_eq_take.mp stands
    refine ⟨?_, stands.length_le, cut, ?_⟩
    · rw [← cut]
      exact (tryDecodePrefix_iff laws).mpr ⟨encoded, List.prefix_append _ _, rfl⟩
    · obtain ⟨_, value, fits, whole⟩ := encoded
      exact ⟨value, whole, tryVerify_of_toSign laws fits whole⟩
  · intro values extra encoded
    have reads := (readSigned_reads laws (values.flatMap Signed.bytes ++ extra)).times_written
    refine ⟨(reads _ 0 (Nat.zero_le _) _ _).mpr ⟨_, ⟨rfl, encoded, rfl⟩, ?_, (Nat.zero_add _).symm⟩, ?_⟩
    · exact List.prefix_append _ _
    · intro count others read
      obtain ⟨_, ⟨_, othersEncoded, rfl⟩, stands, size⟩ := (reads _ 0 (Nat.zero_le _) _ _).mp read
      rw [Nat.zero_add] at size
      refine flatMap_bytes_injOn laws othersEncoded encoded ?_
      exact (List.prefix_of_prefix_length_le stands (List.prefix_append _ _) size.ge).eq_of_length size.symm

end Signed

def sealedCommit [Bijou64] : Signed LooseCommit := Signed.sealPayload (signerOf 7) (commitWithParents 1)

attribute [local instance] eightBytes eightBytes_lawful shownKeys

theorem signed_selfDelimiting_sealedCommit :
    Signed.tryDecodePrefix (sealedCommit.bytes.take sealedCommit.bytes.length ++ [1, 2]) =
        .ok (sealedCommit, sealedCommit.bytes.length) ∧
      (Cursor.times (Signed.readSigned ([sealedCommit, sealedCommit].flatMap Signed.bytes ++ [3])) 2).run 0 =
        .ok ([sealedCommit, sealedCommit], ([sealedCommit, sealedCommit].flatMap Signed.bytes).length) := by
  have encoded : Signed.Encoded LooseCommit.CountsFit sealedCommit :=
    Signed.sealPayload_encoded rfl (by decide)
  have decoded := (Signed.tryDecodePrefix_iff looseCommit_laws).mpr ⟨encoded, List.prefix_rfl, rfl⟩
  have delimiting := Signed.signed_selfDelimiting looseCommit_laws
  refine ⟨(delimiting.1 _ [1, 2] _ _ decoded).1, (delimiting.2 _ [3] ?_).1⟩
  simpa using encoded

end Subduction
