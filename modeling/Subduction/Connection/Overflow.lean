/-
**The sums of the decoder of sync messages.**

The decoder adds sizes to offsets in `usize`. A message is shorter than 2³² bytes, so the sums with sizes
of the format are small; the length of a blob is any 64-bit number, and it is added to the offset before
anything is compared with the length of the payload.

Main result: `SyncMessage.tryDecode_overflow_iff`.
-/

import Subduction.Lib.Overflow
import Subduction.Connection.Codec
import Mathlib.Data.UInt

set_option linter.unusedSectionVars false

namespace Subduction

open Cursor

/-! ### What is read before the payload -/

/-- `decode_message`, up to the decoder of the payload: the tag. -/
def SyncMessage.header (bytes : List UInt8) : Except DecodeError UInt8 := do
  Decode.ensure (envelopeHeaderSize ≤ bytes.length)
    (.messageTooShort "Message envelope" envelopeHeaderSize bytes.length)
  Decode.ensure (bytes.take 4 = messageSchema) (.invalidSchema messageSchema (bytes.take 4))
  let totalSize ← Decode.u32 bytes 4
  Decode.ensure (bytes.length = totalSize.toNat) (.sizeMismatch totalSize.toNat bytes.length)
  let tag ← Decode.u8 bytes 8
  let (minSize, typeName) ← minPayloadSize tag
  Decode.ensure (minSize ≤ (bytes.drop envelopeHeaderSize).length)
    (.messageTooShort typeName (envelopeHeaderSize + minSize) bytes.length)
  pure tag

theorem SyncMessage.length_of_header {bytes : List UInt8} {tag : UInt8} (accepted : header bytes = .ok tag) :
    bytes.length < 2 ^ 32 := by
  simp only [header, bind_eq_ok, Decode.ensure_eq_ok] at accepted
  obtain ⟨_, -, _, -, totalSize, -, _, sameSize, -⟩ := accepted
  exact sameSize ▸ totalSize.toNat_lt

section Decoders

variable [Bijou64Codec] [Ed25519]

theorem SyncMessage.decodeEnvelope_eq (bytes : List UInt8) :
    decodeEnvelope bytes = header bytes >>= fun tag =>
      (decodePayload (bytes.drop envelopeHeaderSize) tag).run 0 := by
  simp only [header, decodeEnvelope, bind_assoc, pure_bind]

/-! ### The decoders with checked sums -/

namespace Summed

/-- A decoder of the format without a blob. -/
def plain {α : Type} (reader : Cursor DecodeError α) : Cursor (Fault DecodeError) α :=
  reader.lifted (usizeMax + 1)

/-- `payload.get(offset..offset + size)`: the end is computed first. -/
def readSlice (buf : List UInt8) (size : Nat) : Cursor (Fault DecodeError) (List UInt8) := fun offset => do
  let _ ← Fault.within (usizeMax + 1) (offset + size)
  (plain (Subduction.readSlice buf size)).run offset

def readBlob (buf : List UInt8) : Cursor (Fault DecodeError) Blob := do
  let blobSize ← plain (readBijou64AsUsize buf)
  let contents ← readSlice buf blobSize
  pure ⟨contents⟩

def readItem {α : Type} [DecodeFields α] (payload : List UInt8) :
    Cursor (Fault DecodeError) (Signed α × Blob) := do
  let signed ← plain (Signed.readSigned payload)
  let blob ← readBlob payload
  pure (signed, blob)

/-- `decode_sync_diff`. -/
def decodeSyncDiff (payload : List UInt8) : Cursor (Fault DecodeError) SyncDiff := do
  let commitCount ← plain (readU16 payload)
  let fragmentCount ← plain (readU16 payload)
  let requestedCommitCount ← plain (readU16 payload)
  let requestedFragmentCount ← plain (readU16 payload)
  let missingCommits ← (readItem payload).times commitCount.toNat
  let missingFragments ← (readItem payload).times fragmentCount.toNat
  let commitFingerprints ← plain ((readFingerprint payload).times requestedCommitCount.toNat)
  let fragmentFingerprints ← plain ((readFingerprint payload).times requestedFragmentCount.toNat)
  pure ⟨missingCommits, missingFragments, commitFingerprints, fragmentFingerprints⟩

def decodeSyncResult (payload : List UInt8) : Cursor (Fault DecodeError) SyncResult := do
  let resultTag ← plain (readU8 payload)
  match resultTag with
  | 0x00 => do
      let diff ← decodeSyncDiff payload
      pure (.ok diff)
  | 0x01 => pure .notFound
  | 0x02 => pure .unauthorized
  | other => throw (.failed (.invalidEnumTag other "SyncResult"))

/-- `decode_loose_commit` and `decode_fragment`. -/
def decodePushed {α : Type} [DecodeFields α]
    (message : SedimentreeId → Signed α → Blob → RemoteHeads → SyncMessage) (payload : List UInt8) :
    Cursor (Fault DecodeError) SyncMessage := do
  let id ← plain (readSedimentreeId payload)
  let senderHeads ← plain (decodeRemoteHeads payload)
  let item ← readItem payload
  pure (message id item.1 item.2 senderHeads)

/-- `decode_batch_sync_response`. -/
def decodeBatchSyncResponse (payload : List UInt8) : Cursor (Fault DecodeError) SyncMessage := do
  let requestor ← plain (readPeerId payload)
  let nonce ← plain (readU64 payload)
  let id ← plain (readSedimentreeId payload)
  let result ← decodeSyncResult payload
  let responderHeads ← plain (decodeRemoteHeads payload)
  pure (.batchSyncResponse ⟨⟨requestor, nonce⟩, id, result, responderHeads⟩)

def decodePayload (payload : List UInt8) : UInt8 → Cursor (Fault DecodeError) SyncMessage
  | 0x00 => decodePushed .looseCommit payload
  | 0x01 => decodePushed .fragment payload
  | 0x05 => decodeBatchSyncResponse payload
  | tag => plain (SyncMessage.decodePayload payload tag)

/-- `SyncMessage::try_decode`. -/
def tryDecode (bytes : List UInt8) : Except (Fault DecodeError) SyncMessage := do
  let tag ← Fault.lift (SyncMessage.header bytes)
  let (message, _) ← (decodePayload (bytes.drop SyncMessage.envelopeHeaderSize) tag).run 0
  pure message

end Summed

/-! ### Where a blob is too long -/

/-- **The length of a blob leaves the range** when it is added to the position behind it. -/
def BlobOver (payload : List UInt8) (start : Nat) : Prop :=
  ∃ size : UInt64, Bijou64.encode size <+: payload.drop start ∧
    2 ^ 64 ≤ start + (Bijou64.encode size).length + size.toNat

/-- The length of the blob of an item. -/
def ItemOver (α : Type) [DecodeFields α] (payload : List UInt8) (start : Nat) : Prop :=
  ∃ (signed : Signed α) (stop : Nat),
    (Signed.readSigned payload).run start = .ok (signed, stop) ∧ BlobOver payload stop

/-- The length of the blob of one of several items, behind the items before it. -/
def ItemsOver (α : Type) [DecodeFields α] (payload : List UInt8) (count start : Nat) : Prop :=
  ∃ fewer < count, ∃ (items : List (Signed α × Blob)) (stop : Nat),
    ((readItem payload).times fewer).run start = .ok (items, stop) ∧ ItemOver α payload stop

/-- The length of a blob in a diff. -/
def DiffOver (payload : List UInt8) (start : Nat) : Prop :=
  ∃ commitCount fragmentCount items, ((do
      let commitCount ← readU16 payload
      let fragmentCount ← readU16 payload
      let _ ← readU16 payload
      let _ ← readU16 payload
      pure (commitCount, fragmentCount)) : Cursor DecodeError (UInt16 × UInt16)).run start =
        .ok ((commitCount, fragmentCount), items) ∧
      (ItemsOver LooseCommit payload commitCount.toNat items ∨
        ∃ (commits : List (Signed LooseCommit × Blob)) (fragments : Nat),
          ((readItem payload).times commitCount.toNat).run items = .ok (commits, fragments) ∧
            ItemsOver Fragment payload fragmentCount.toNat fragments)

/-- The length of the blob of a pushed item, behind the document and the heads of the sender. -/
def PushedOver (α : Type) [DecodeFields α] (payload : List UInt8) : Prop :=
  ∃ read stop, ((do
    let _ ← readSedimentreeId payload
    decodeRemoteHeads payload) : Cursor DecodeError RemoteHeads).run 0 = .ok (read, stop) ∧
      ItemOver α payload stop

/-- The length of a blob in a response, behind the request, the document and the tag of the result. -/
def ResponseOver (payload : List UInt8) : Prop :=
  ∃ stop, ((do
    let _ ← readPeerId payload
    let _ ← readU64 payload
    let _ ← readSedimentreeId payload
    readU8 payload) : Cursor DecodeError UInt8).run 0 = .ok (0x00, stop) ∧ DiffOver payload stop

/-- **A blob whose length leaves the range**, in a message whose header is accepted. -/
def OverlongBlob (bytes : List UInt8) : Prop :=
  ∃ tag, SyncMessage.header bytes = .ok tag ∧ match tag with
    | 0x00 => PushedOver LooseCommit (bytes.drop SyncMessage.envelopeHeaderSize)
    | 0x01 => PushedOver Fragment (bytes.drop SyncMessage.envelopeHeaderSize)
    | 0x05 => ResponseOver (bytes.drop SyncMessage.envelopeHeaderSize)
    | _ => False

/-! ### The decoders stop there -/

namespace Summed

variable [LawfulBijou64] {buf : List UInt8} (short : buf.length < 2 ^ 32)

include short

theorem plain_follows {α : Type} {reader : Cursor DecodeError α} {Form : α → List UInt8 → Prop}
    (reads : Reads buf reader Form) : Follows buf.length (plain reader) reader fun _ => False :=
  .lifted (short.trans (by decide)) reads.inside

/-- **A blob is read in range** unless its length, added to the position behind it, leaves the range. -/
theorem readBlob_follows : Follows buf.length (readBlob buf) (Subduction.readBlob buf) (BlobOver buf) := by
  have slice (size : Nat) : Follows buf.length (readSlice buf size) (Subduction.readSlice buf size)
      fun start => 2 ^ 64 ≤ start + size := by
    have inRange := plain_follows short (readSlice_reads size)
    refine ⟨fun start _ large => ?_, fun start inside small => ?_, inRange.inside⟩
    · have out : ¬ start + size < usizeMax + 1 := by
        unfold usizeMax
        omega
      show readSlice buf size start = _
      unfold readSlice Fault.within
      rw [if_neg out]
      rfl
    · refine (Fault.within_bind ?_ _).trans (inRange.same start inside id)
      unfold usizeMax
      omega
  refine ((plain_follows short readBijou64AsUsize_reads).after fun size =>
    (slice size).before fun contents => .pure (⟨contents⟩ : Blob)).congr' fun start inside => ?_
  constructor
  · rintro ⟨size, stop, ran, large⟩
    obtain ⟨_, ⟨small, rfl⟩, stands, rfl⟩ := (readBijou64AsUsize_reads start inside size stop).mp ran
    refine ⟨UInt64.ofNat size, stands, ?_⟩
    rwa [UInt64.toNat_ofNat_of_lt' small]
  · rintro ⟨size, stands, large⟩
    refine ⟨size.toNat, _, (readBijou64AsUsize_reads start inside _ _).mpr ⟨_, ⟨size.toNat_lt, rfl⟩, ?_, rfl⟩, ?_⟩
    · simpa only [UInt64.ofNat_toNat] using stands
    · simpa only [UInt64.ofNat_toNat] using large

theorem readItem_follows {α : Type} [DecodeFields α] {good : α → Prop} (laws : CodecLaws α good) :
    Follows buf.length (readItem buf) (Subduction.readItem (α := α) buf) (ItemOver α buf) :=
  (plain_follows short (Signed.readSigned_reads laws buf)).after fun signed =>
    (readBlob_follows short).before fun blob => .pure (signed, blob)

theorem decodeSyncDiff_follows :
    Follows buf.length (decodeSyncDiff buf) (Subduction.decodeSyncDiff buf) (DiffOver buf) := by
  refine ((plain_follows short readU16_reads).after fun commitCount =>
    (plain_follows short readU16_reads).after fun fragmentCount =>
    (plain_follows short readU16_reads).after fun requestedCommitCount =>
    (plain_follows short readU16_reads).after fun requestedFragmentCount =>
    ((readItem_follows short looseCommit_laws).times commitCount.toNat).bind fun commits =>
    ((readItem_follows short fragment_laws).times fragmentCount.toNat).before fun fragments =>
    (plain_follows short (readFingerprint_reads.times requestedCommitCount.toNat)).before fun commitFps =>
    (plain_follows short (readFingerprint_reads.times requestedFragmentCount.toNat)).before
      fun fragmentFps => .pure (⟨commits, fragments, commitFps, fragmentFps⟩ : SyncDiff)).congr fun start => ?_
  constructor
  · rintro ⟨commitCount, _, first, fragmentCount, _, second, _, _, third, _, items, fourth, beyond⟩
    refine ⟨commitCount, fragmentCount, items, ?_, beyond⟩
    exact run_bind_eq_ok.mpr ⟨_, _, first, run_bind_eq_ok.mpr ⟨_, _, second,
      run_bind_eq_ok.mpr ⟨_, _, third, run_bind_eq_ok.mpr ⟨_, _, fourth, rfl⟩⟩⟩⟩
  · rintro ⟨commitCount, fragmentCount, items, ran, beyond⟩
    obtain ⟨_, _, first, ran⟩ := run_bind_eq_ok.mp ran
    obtain ⟨_, _, second, ran⟩ := run_bind_eq_ok.mp ran
    obtain ⟨_, _, third, ran⟩ := run_bind_eq_ok.mp ran
    obtain ⟨_, _, fourth, ran⟩ := run_bind_eq_ok.mp ran
    obtain ⟨counts, rfl⟩ := Prod.mk.inj (Except.ok.inj ran)
    obtain ⟨rfl, rfl⟩ := Prod.mk.inj counts
    exact ⟨_, _, first, _, _, second, _, _, third, _, _, fourth, beyond⟩

theorem decodeSyncResult_follows :
    Follows buf.length (decodeSyncResult buf) (Subduction.decodeSyncResult buf) fun start =>
      ∃ stop, (readU8 buf).run start = .ok (0x00, stop) ∧ DiffOver buf stop := by
  have next (resultTag : UInt8) : Follows buf.length (match resultTag with
        | 0x00 => do
            let diff ← decodeSyncDiff buf
            pure (.ok diff)
        | 0x01 => pure .notFound
        | 0x02 => pure .unauthorized
        | other => throw (.failed (.invalidEnumTag other "SyncResult")) :
          Cursor (Fault DecodeError) SyncResult)
        (match resultTag with
        | 0x00 => do
            let diff ← Subduction.decodeSyncDiff buf
            pure (.ok diff)
        | 0x01 => pure .notFound
        | 0x02 => pure .unauthorized
        | other => throw (.invalidEnumTag other "SyncResult") : Cursor DecodeError SyncResult)
        fun start => resultTag = 0x00 ∧ DiffOver buf start := by
    split
    · exact ((decodeSyncDiff_follows short).before fun diff => .pure (SyncResult.ok diff)).congr fun start =>
        (and_iff_right rfl).symm
    · exact (Follows.pure _).congr fun start => ⟨False.elim, fun ⟨isOk, _⟩ => absurd isOk (by decide)⟩
    · exact (Follows.pure _).congr fun start => ⟨False.elim, fun ⟨isOk, _⟩ => absurd isOk (by decide)⟩
    · rename_i notOk _ _
      exact (Follows.throw _).congr fun start => ⟨False.elim, fun ⟨isOk, _⟩ => notOk isOk⟩
  refine ((plain_follows short readU8_reads).after next).congr fun start => ?_
  constructor
  · rintro ⟨_, stop, ran, rfl, beyond⟩
    exact ⟨stop, ran, beyond⟩
  · rintro ⟨stop, ran, beyond⟩
    exact ⟨0x00, stop, ran, rfl, beyond⟩

theorem decodePushed_follows {α : Type} [DecodeFields α] {good : α → Prop} (laws : CodecLaws α good)
    (mk : SedimentreeId → Signed α → Blob → RemoteHeads → SyncMessage) :
    Follows buf.length (decodePushed mk buf) (SyncMessage.decodePushed mk buf) fun start =>
      ∃ read stop, ((do
        let _ ← readSedimentreeId buf
        decodeRemoteHeads buf) : Cursor DecodeError RemoteHeads).run start = .ok (read, stop) ∧
          ItemOver α buf stop := by
  refine ((plain_follows short readSedimentreeId_reads).after fun id =>
    (plain_follows short decodeRemoteHeads_reads).after fun senderHeads =>
    (readItem_follows short laws).before fun item =>
      .pure (mk id item.1 item.2 senderHeads)).congr fun start => ?_
  constructor
  · rintro ⟨_, _, first, read, stop, second, beyond⟩
    exact ⟨read, stop, run_bind_eq_ok.mpr ⟨_, _, first, second⟩, beyond⟩
  · rintro ⟨read, stop, ran, beyond⟩
    obtain ⟨_, _, first, second⟩ := run_bind_eq_ok.mp ran
    exact ⟨_, _, first, read, stop, second, beyond⟩

theorem decodeBatchSyncResponse_follows :
    Follows buf.length (decodeBatchSyncResponse buf) (SyncMessage.decodeBatchSyncResponse buf) fun start =>
      ∃ stop, ((do
        let _ ← readPeerId buf
        let _ ← readU64 buf
        let _ ← readSedimentreeId buf
        readU8 buf) : Cursor DecodeError UInt8).run start = .ok (0x00, stop) ∧ DiffOver buf stop := by
  refine ((plain_follows short readPeerId_reads).after fun requestor =>
    (plain_follows short readU64_reads).after fun nonce =>
    (plain_follows short readSedimentreeId_reads).after fun id =>
    (decodeSyncResult_follows short).before fun result =>
    (plain_follows short decodeRemoteHeads_reads).before fun responderHeads =>
      .pure (SyncMessage.batchSyncResponse ⟨⟨requestor, nonce⟩, id, result, responderHeads⟩)).congr
      fun start => ?_
  constructor
  · rintro ⟨_, _, first, _, _, second, _, _, third, stop, fourth, beyond⟩
    exact ⟨stop, run_bind_eq_ok.mpr ⟨_, _, first, run_bind_eq_ok.mpr ⟨_, _, second,
      run_bind_eq_ok.mpr ⟨_, _, third, fourth⟩⟩⟩, beyond⟩
  · rintro ⟨stop, ran, beyond⟩
    obtain ⟨_, _, first, ran⟩ := run_bind_eq_ok.mp ran
    obtain ⟨_, _, second, ran⟩ := run_bind_eq_ok.mp ran
    obtain ⟨_, _, third, fourth⟩ := run_bind_eq_ok.mp ran
    exact ⟨_, _, first, _, _, second, _, _, third, stop, fourth, beyond⟩

theorem decodePayload_run (tag : UInt8) : ((match tag with
      | 0x00 => PushedOver LooseCommit buf
      | 0x01 => PushedOver Fragment buf
      | 0x05 => ResponseOver buf
      | _ => False) → (decodePayload buf tag).run 0 = .error .overflow) ∧
    ((¬ match tag with
      | 0x00 => PushedOver LooseCommit buf
      | 0x01 => PushedOver Fragment buf
      | 0x05 => ResponseOver buf
      | _ => False) → (decodePayload buf tag).run 0 = Fault.lift ((SyncMessage.decodePayload buf tag).run 0)) := by
  have both {checked : Cursor (Fault DecodeError) SyncMessage} {reader : Cursor DecodeError SyncMessage}
      {Stops : Nat → Prop} (follows : Follows buf.length checked reader Stops) :
      (Stops 0 → checked.run 0 = .error .overflow) ∧
        (¬ Stops 0 → checked.run 0 = Fault.lift (reader.run 0)) :=
    ⟨follows.beyond 0 (Nat.zero_le _), follows.same 0 (Nat.zero_le _)⟩
  unfold decodePayload
  split
  · exact both (decodePushed_follows short looseCommit_laws .looseCommit)
  · exact both (decodePushed_follows short fragment_laws .fragment)
  · exact both (decodeBatchSyncResponse_follows short)
  · exact both (plain_follows short (SyncMessage.decodePayload_reads tag))

end Summed

/-- **The decoder overflows on the messages with an overlong blob**, and only on these; every other input
it decodes or rejects as it does on unbounded numbers. -/
theorem SyncMessage.tryDecode_overflow_iff [LawfulBijou64] (bytes : List UInt8) :
    (Summed.tryDecode bytes ≠ .error .overflow ↔ ¬ OverlongBlob bytes) ∧
      (¬ OverlongBlob bytes → Summed.tryDecode bytes = Fault.lift (SyncMessage.tryDecode bytes)) := by
  have short {tag : UInt8} (accepted : SyncMessage.header bytes = .ok tag) :
      (bytes.drop SyncMessage.envelopeHeaderSize).length < 2 ^ 32 := by
    have size := SyncMessage.length_of_header accepted
    rw [List.length_drop]
    omega
  have same (clear : ¬ OverlongBlob bytes) :
      Summed.tryDecode bytes = Fault.lift (SyncMessage.tryDecode bytes) := by
    have split : SyncMessage.tryDecode bytes = SyncMessage.header bytes >>= fun tag =>
        ((SyncMessage.decodePayload (bytes.drop SyncMessage.envelopeHeaderSize) tag).run 0).map Prod.fst := by
      rw [SyncMessage.tryDecode, SyncMessage.decodeEnvelope_eq]
      cases SyncMessage.header bytes <;> rfl
    rw [split]
    refine Fault.bind_eq_lift rfl fun tag accepted => ?_
    rw [(Summed.decodePayload_run (short accepted) tag).2 fun beyond => clear ⟨tag, accepted, beyond⟩]
    cases (SyncMessage.decodePayload (bytes.drop SyncMessage.envelopeHeaderSize) tag).run 0 <;> rfl
  refine ⟨⟨fun inRange ⟨tag, accepted, beyond⟩ => inRange ?_, fun clear => ?_⟩, same⟩
  · unfold Summed.tryDecode
    rw [accepted]
    show (Summed.decodePayload _ tag).run 0 >>= _ = _
    rw [(Summed.decodePayload_run (short accepted) tag).1 beyond]
    rfl
  · rw [same clear]
    exact Fault.lift_ne_overflow _

end Decoders

/-- A pushed commit without its blob, which claims a length. -/
def cutPush (claimed : UInt64) : List UInt8 :=
  let _ : Bijou64Codec := eightBytes
  SyncMessage.envelope 0x00 ((⟨0⟩ : SedimentreeId).asBytes ++ encodeRemoteHeads ⟨0, []⟩
    ++ (Signed.sealPayload (signerOf 1) (⟨⟨0⟩, .numbered 1, ∅, ⟨⟨0⟩, 0⟩⟩ : LooseCommit)).bytes
    ++ Bijou64.encode claimed)

attribute [local instance] eightBytes eightBytes_lawful shownKeys

/-- **The end of a blob of 2⁶⁴ − 1 bytes leaves the range**, before the blob is found to be missing. -/
theorem overlong_push_overflows : Summed.tryDecode (cutPush (2 ^ 64 - 1)) = .error .overflow := by
  decide +kernel

theorem cut_push_rejected : ¬ OverlongBlob (cutPush 5) ∧
      Summed.tryDecode (cutPush 5) = Fault.lift (SyncMessage.tryDecode (cutPush 5)) := by
  have inRange : Summed.tryDecode (cutPush 5) ≠ .error .overflow := by decide +kernel
  have clear := (SyncMessage.tryDecode_overflow_iff (cutPush 5)).1.mp inRange
  exact ⟨clear, (SyncMessage.tryDecode_overflow_iff (cutPush 5)).2 clear⟩

end Subduction
