/-
**The messages of the sync protocol and their wire format.**

A message is an envelope (schema, total size, tag) around a payload. Encoder and decoder are written
apart: the encoder narrows every count to the width of its field, the decoder moves a cursor over the
payload and trusts the counts it finds.

* `SyncMessage` — the messages; `SyncDiff`, `RemoteHeads`, `RequestedData` are their parts.
* `SyncMessage.encode`, `SyncMessage.encodedSize` — the encoder, and the size it computes beforehand.
* `SyncMessage.decodePayload`, `SyncMessage.tryDecode` — the decoder.
-/

import Subduction.Core.Reconcile
import Subduction.Crypto.Delimited

namespace Subduction

/-! ### Messages -/

/-- The heads of a remote peer for a document, with the counter of the message that brought them. -/
structure RemoteHeads where
  counter : UInt64
  heads : List CommitId
deriving DecidableEq

structure RequestId where
  requestor : PeerId
  nonce : UInt64
deriving DecidableEq

structure BatchSyncRequest where
  id : SedimentreeId
  reqId : RequestId
  fingerprintSummary : FingerprintSummary
  subscribe : Bool
deriving DecidableEq

/-- What the responder asks for in return: fingerprints of the requestor's summary. -/
structure RequestedData where
  commitFingerprints : List Fingerprint
  fragmentFingerprints : List Fingerprint
deriving DecidableEq

/-- The items that a response brings, and those it asks for. -/
structure SyncDiff where
  missingCommits : List (Signed LooseCommit × Blob)
  missingFragments : List (Signed Fragment × Blob)
  requesting : RequestedData
deriving DecidableEq

inductive SyncResult where
  | ok (diff : SyncDiff)
  | notFound
  | unauthorized
deriving DecidableEq

/-- A response to a `BatchSyncRequest`. -/
structure BatchSyncResponse where
  reqId : RequestId
  id : SedimentreeId
  result : SyncResult
  responderHeads : RemoteHeads
deriving DecidableEq

/-- **The messages between two peers.** -/
inductive SyncMessage where
  | looseCommit (id : SedimentreeId) (commit : Signed LooseCommit) (blob : Blob)
      (senderHeads : RemoteHeads)
  | fragment (id : SedimentreeId) (fragment : Signed Fragment) (blob : Blob)
      (senderHeads : RemoteHeads)
  | batchSyncRequest (request : BatchSyncRequest)
  | batchSyncResponse (response : BatchSyncResponse)
  | removeSubscriptions (ids : List SedimentreeId)
  | dataRequestRejected (id : SedimentreeId)
  | headsUpdate (id : SedimentreeId) (heads : RemoteHeads)
deriving DecidableEq

/-! ### Encoding -/

/-- A length in a field of `width` bytes; what does not fit is cut off. -/
def encodeCount (width count : Nat) : List UInt8 := bytesBE width (BitVec.ofNat (8 * width) count)

@[simp] theorem length_encodeCount (width count : Nat) : (encodeCount width count).length = width :=
  length_bytesBE width _

def encodeU64 (number : UInt64) : List UInt8 := bytesBE 8 number.toBitVec

@[simp] theorem length_encodeU64 (number : UInt64) : (encodeU64 number).length = 8 :=
  length_bytesBE 8 _

/-- `Fingerprint::as_u64`, as bytes. -/
def Fingerprint.asBytes (fp : Fingerprint) : List UInt8 := encodeU64 fp.value

@[simp] theorem Fingerprint.length_asBytes (fp : Fingerprint) : fp.asBytes.length = 8 :=
  length_encodeU64 fp.value

/-- `PeerId::as_bytes`. -/
def PeerId.asBytes (id : PeerId) : List UInt8 := bytesBE 32 id.bytes

@[simp] theorem PeerId.length_asBytes (id : PeerId) : id.asBytes.length = 32 := length_bytesBE 32 id.bytes

/-- `encode_remote_heads`. -/
def encodeRemoteHeads (remoteHeads : RemoteHeads) : List UInt8 :=
  encodeU64 remoteHeads.counter ++ encodeCount 4 remoteHeads.heads.length
    ++ remoteHeads.heads.flatMap CommitId.asBytes

/-- `remote_heads_size`. -/
def remoteHeadsSize (heads : RemoteHeads) : Nat := 8 + 4 + heads.heads.length * 32

section Encode

variable [Bijou64]

def encodeBlob (blob : Blob) : List UInt8 :=
  Bijou64.encode (UInt64.ofNat blob.contents.length) ++ blob.contents

def encodeItem {α : Type} (item : Signed α × Blob) : List UInt8 := item.1.bytes ++ encodeBlob item.2

def itemSize {α : Type} (item : Signed α × Blob) : Nat :=
  item.1.bytes.length + Bijou64.encodedLen (UInt64.ofNat item.2.contents.length)
    + item.2.contents.length

/-- `encode_batch_sync_request`. -/
def encodeBatchSyncRequest (request : BatchSyncRequest) : List UInt8 :=
  request.id.asBytes ++ request.reqId.requestor.asBytes ++ encodeU64 request.reqId.nonce
    ++ [request.subscribe.toUInt8]
    ++ encodeU64 request.fingerprintSummary.seed.key0 ++ encodeU64 request.fingerprintSummary.seed.key1
    ++ encodeCount 2 request.fingerprintSummary.commitFingerprints.card
    ++ encodeCount 2 request.fingerprintSummary.fragmentFingerprints.card
    ++ (ascendingList request.fingerprintSummary.commitFingerprints).flatMap Fingerprint.asBytes
    ++ (ascendingList request.fingerprintSummary.fragmentFingerprints).flatMap Fingerprint.asBytes

/-- `encode_sync_diff`. -/
def encodeSyncDiff (diff : SyncDiff) : List UInt8 :=
  encodeCount 2 diff.missingCommits.length ++ encodeCount 2 diff.missingFragments.length
    ++ encodeCount 2 diff.requesting.commitFingerprints.length
    ++ encodeCount 2 diff.requesting.fragmentFingerprints.length
    ++ diff.missingCommits.flatMap encodeItem ++ diff.missingFragments.flatMap encodeItem
    ++ diff.requesting.commitFingerprints.flatMap Fingerprint.asBytes
    ++ diff.requesting.fragmentFingerprints.flatMap Fingerprint.asBytes

/-- `sync_diff_size`. -/
def syncDiffSize (diff : SyncDiff) : Nat :=
  (2 + 2 + 2 + 2) + (diff.missingCommits.map itemSize).sum + (diff.missingFragments.map itemSize).sum
    + (diff.requesting.commitFingerprints.length + diff.requesting.fragmentFingerprints.length) * 8

def encodeSyncResult : SyncResult → List UInt8
  | .ok diff => 0x00 :: encodeSyncDiff diff
  | .notFound => [0x01]
  | .unauthorized => [0x02]

/-- `sync_result_size`. -/
def syncResultSize : SyncResult → Nat
  | .ok diff => syncDiffSize diff
  | .notFound => 0
  | .unauthorized => 0

/-- `encode_batch_sync_response`. -/
def encodeBatchSyncResponse (response : BatchSyncResponse) : List UInt8 :=
  response.reqId.requestor.asBytes ++ encodeU64 response.reqId.nonce ++ response.id.asBytes
    ++ encodeSyncResult response.result ++ encodeRemoteHeads response.responderHeads

/-- `encode_remove_subscriptions`. -/
def encodeRemoveSubscriptions (ids : List SedimentreeId) : List UInt8 :=
  encodeCount 2 ids.length ++ ids.flatMap SedimentreeId.asBytes

namespace SyncMessage

/-- `MESSAGE_SCHEMA`: `SUM` and version zero. -/
def messageSchema : List UInt8 := [0x53, 0x55, 0x4d, 0x00]

/-- `ENVELOPE_HEADER_SIZE`. -/
def envelopeHeaderSize : Nat := 4 + 4 + 1

def tag : SyncMessage → UInt8
  | looseCommit _ _ _ _ => 0x00
  | fragment _ _ _ _ => 0x01
  | batchSyncRequest _ => 0x04
  | batchSyncResponse _ => 0x05
  | removeSubscriptions _ => 0x06
  | dataRequestRejected _ => 0x07
  | headsUpdate _ _ => 0x08

/-- What `encode_message` writes behind the tag. -/
def encodePayload : SyncMessage → List UInt8
  | looseCommit id signed blob senderHeads =>
    id.asBytes ++ encodeRemoteHeads senderHeads ++ encodeItem (signed, blob)
  | fragment id signed blob senderHeads =>
    id.asBytes ++ encodeRemoteHeads senderHeads ++ encodeItem (signed, blob)
  | batchSyncRequest request => encodeBatchSyncRequest request
  | batchSyncResponse response => encodeBatchSyncResponse response
  | removeSubscriptions ids => encodeRemoveSubscriptions ids
  | dataRequestRejected id => id.asBytes
  | headsUpdate id heads => id.asBytes ++ encodeRemoteHeads heads

/-- `SyncMessage::payload_size`. -/
def payloadSize : SyncMessage → Nat
  | looseCommit _ signed blob senderHeads => 32 + itemSize (signed, blob) + remoteHeadsSize senderHeads
  | fragment _ signed blob senderHeads => 32 + itemSize (signed, blob) + remoteHeadsSize senderHeads
  | batchSyncRequest request =>
    32 + 32 + 8 + 1 + 16 + 2 + 2 + request.fingerprintSummary.commitFingerprints.card * 8
      + request.fingerprintSummary.fragmentFingerprints.card * 8
  | batchSyncResponse response =>
    32 + 8 + 32 + 1 + syncResultSize response.result + remoteHeadsSize response.responderHeads
  | removeSubscriptions ids => 2 + ids.length * 32
  | dataRequestRejected _ => 32
  | headsUpdate _ heads => 32 + remoteHeadsSize heads

/-- `SyncMessage::encoded_size`. -/
def encodedSize (message : SyncMessage) : Nat := envelopeHeaderSize + message.payloadSize

/-- `SyncMessage::encode`. -/
def encode (message : SyncMessage) : List UInt8 :=
  messageSchema ++ encodeCount 4 (envelopeHeaderSize + message.payloadSize) ++ [message.tag]
    ++ message.encodePayload

end SyncMessage

end Encode

/-! ### Decoding -/

section Readers

/-- `read_u8`. -/
def readU8 (buf : List UInt8) : Cursor DecodeError UInt8 :=
  .reading fun offset => (Decode.u8 buf offset).map (·, 1)

/-- `read_u16`. -/
def readU16 (buf : List UInt8) : Cursor DecodeError UInt16 :=
  .reading fun offset => (Decode.u16 buf offset).map (·, 2)

/-- `read_u32`. -/
def readU32 (buf : List UInt8) : Cursor DecodeError UInt32 :=
  .reading fun offset => (Decode.u32 buf offset).map (·, 4)

/-- `read_u64`. -/
def readU64 (buf : List UInt8) : Cursor DecodeError UInt64 :=
  .reading fun offset => (Decode.u64 buf offset).map (·, 8)

/-- `read_array`. -/
def readArray (n : Nat) (buf : List UInt8) : Cursor DecodeError (BitVec (8 * n)) :=
  .reading fun offset => (Decode.array n buf offset).map (·, n)

/-- A `SedimentreeId` from `read_array`. -/
def readSedimentreeId (buf : List UInt8) : Cursor DecodeError SedimentreeId := do
  let bytes ← readArray 32 buf
  pure ⟨bytes⟩

/-- A `CommitId` from `read_array`. -/
def readCommitId (buf : List UInt8) : Cursor DecodeError CommitId := do
  let bytes ← readArray 32 buf
  pure ⟨bytes⟩

/-- A `PeerId` from `read_array`. -/
def readPeerId (buf : List UInt8) : Cursor DecodeError PeerId := do
  let bytes ← readArray 32 buf
  pure ⟨bytes⟩

/-- `Fingerprint::from_u64` of `read_u64`. -/
def readFingerprint (buf : List UInt8) : Cursor DecodeError Fingerprint := do
  let number ← readU64 buf
  pure ⟨number⟩

def readSlice (buf : List UInt8) (size : Nat) : Cursor DecodeError (List UInt8) :=
  .reading fun offset =>
    if offset + size ≤ buf.length then .ok ((buf.drop offset).take size, size)
    else .error (.bufferTooShort (.slice size) offset size (buf.length - offset))

/-- `usize::MAX` of a 64-bit target. -/
def usizeMax : Nat := 2 ^ 64 - 1

variable [Bijou64Codec]

/-- `read_bijou64`. -/
def readBijou64 (buf : List UInt8) : Cursor DecodeError UInt64 := .reading (Decode.bijou64 buf)

/-- `read_bijou64_as_usize`. -/
def readBijou64AsUsize (buf : List UInt8) : Cursor DecodeError Nat := do
  let val ← readBijou64 buf
  if val.toNat ≤ usizeMax then pure val.toNat else throw (.blobTooLarge val.toNat usizeMax)

def readBlob (buf : List UInt8) : Cursor DecodeError Blob := do
  let blobSize ← readBijou64AsUsize buf
  let contents ← readSlice buf blobSize
  pure ⟨contents⟩

/-- `decode_remote_heads`. -/
def decodeRemoteHeads (payload : List UInt8) : Cursor DecodeError RemoteHeads := do
  let counter ← readU64 payload
  let count ← readU32 payload
  let heads ← (readCommitId payload).times count.toNat
  pure ⟨counter, heads⟩

variable [Ed25519]

def readItem {α : Type} [DecodeFields α] (payload : List UInt8) :
    Cursor DecodeError (Signed α × Blob) := do
  let signed ← Signed.readSigned payload
  let blob ← readBlob payload
  pure (signed, blob)

/-- `decode_sync_diff`. -/
def decodeSyncDiff (payload : List UInt8) : Cursor DecodeError SyncDiff := do
  let commitCount ← readU16 payload
  let fragmentCount ← readU16 payload
  let requestedCommitCount ← readU16 payload
  let requestedFragmentCount ← readU16 payload
  let missingCommits ← (readItem payload).times commitCount.toNat
  let missingFragments ← (readItem payload).times fragmentCount.toNat
  let commitFingerprints ← (readFingerprint payload).times requestedCommitCount.toNat
  let fragmentFingerprints ← (readFingerprint payload).times requestedFragmentCount.toNat
  pure ⟨missingCommits, missingFragments, commitFingerprints, fragmentFingerprints⟩

def decodeSyncResult (payload : List UInt8) : Cursor DecodeError SyncResult := do
  let resultTag ← readU8 payload
  match resultTag with
  | 0x00 => do
      let diff ← decodeSyncDiff payload
      pure (.ok diff)
  | 0x01 => pure .notFound
  | 0x02 => pure .unauthorized
  | other => throw (.invalidEnumTag other "SyncResult")

def readSubscribe (payload : List UInt8) : Cursor DecodeError Bool := do
  let subscribeByte ← readU8 payload
  match subscribeByte with
  | 0x00 => pure false
  | 0x01 => pure true
  | other => throw (.invalidEnumTag other "Subscribe")

namespace SyncMessage

/-- A pushed item: document, heads of the sender, item and blob. -/
def decodePushed {α : Type} [DecodeFields α]
    (message : SedimentreeId → Signed α → Blob → RemoteHeads → SyncMessage) (payload : List UInt8) :
    Cursor DecodeError SyncMessage := do
  let id ← readSedimentreeId payload
  let senderHeads ← decodeRemoteHeads payload
  let item ← readItem payload
  pure (message id item.1 item.2 senderHeads)

/-- `decode_loose_commit`. -/
def decodeLooseCommit : List UInt8 → Cursor DecodeError SyncMessage := decodePushed .looseCommit

/-- `decode_fragment`. -/
def decodeFragment : List UInt8 → Cursor DecodeError SyncMessage := decodePushed .fragment

/-- `decode_batch_sync_request`. The fingerprints go into sets in whatever order they stand. -/
def decodeBatchSyncRequest (payload : List UInt8) : Cursor DecodeError SyncMessage := do
  let id ← readSedimentreeId payload
  let requestor ← readPeerId payload
  let nonce ← readU64 payload
  let subscribe ← readSubscribe payload
  let key0 ← readU64 payload
  let key1 ← readU64 payload
  let commitCount ← readU16 payload
  let fragmentCount ← readU16 payload
  let commitFps ← (readFingerprint payload).times commitCount.toNat
  let fragmentFps ← (readFingerprint payload).times fragmentCount.toNat
  pure (.batchSyncRequest ⟨id, ⟨requestor, nonce⟩,
    ⟨⟨key0, key1⟩, commitFps.toFinset, fragmentFps.toFinset⟩, subscribe⟩)

/-- `decode_batch_sync_response`. -/
def decodeBatchSyncResponse (payload : List UInt8) : Cursor DecodeError SyncMessage := do
  let requestor ← readPeerId payload
  let nonce ← readU64 payload
  let id ← readSedimentreeId payload
  let result ← decodeSyncResult payload
  let responderHeads ← decodeRemoteHeads payload
  pure (.batchSyncResponse ⟨⟨requestor, nonce⟩, id, result, responderHeads⟩)

/-- `decode_remove_subscriptions`. -/
def decodeRemoveSubscriptions (payload : List UInt8) : Cursor DecodeError SyncMessage := do
  let count ← readU16 payload
  let ids ← (readSedimentreeId payload).times count.toNat
  pure (.removeSubscriptions ids)

/-- `decode_data_request_rejected`. -/
def decodeDataRequestRejected (payload : List UInt8) : Cursor DecodeError SyncMessage := do
  let id ← readSedimentreeId payload
  pure (.dataRequestRejected id)

/-- `decode_heads_update`. -/
def decodeHeadsUpdate (payload : List UInt8) : Cursor DecodeError SyncMessage := do
  let id ← readSedimentreeId payload
  let heads ← decodeRemoteHeads payload
  pure (.headsUpdate id heads)

/-- `min_sizes`: the minimal size of the payload with a tag, and the name of its type. -/
def minPayloadSize : UInt8 → Except DecodeError (Nat × String)
  | 0x00 => .ok (32 + 8 + 4 + 166 + 1, "LooseCommit")
  | 0x01 => .ok (32 + 8 + 4 + 200 + 1, "Fragment")
  | 0x04 => .ok (32 + 32 + 8 + 1 + 16 + 2 + 2, "BatchSyncRequest")
  | 0x05 => .ok (32 + 8 + 32 + 1 + 8 + 4, "BatchSyncResponse")
  | 0x06 => .ok (2, "RemoveSubscriptions")
  | 0x07 => .ok (32, "DataRequestRejected")
  | 0x08 => .ok (32 + 8 + 4, "HeadsUpdate")
  | other => .error (.invalidEnumTag other "Message")

def decodePayload (payload : List UInt8) : UInt8 → Cursor DecodeError SyncMessage
  | 0x00 => decodeLooseCommit payload
  | 0x01 => decodeFragment payload
  | 0x04 => decodeBatchSyncRequest payload
  | 0x05 => decodeBatchSyncResponse payload
  | 0x06 => decodeRemoveSubscriptions payload
  | 0x07 => decodeDataRequestRejected payload
  | 0x08 => decodeHeadsUpdate payload
  | other => throw (.invalidEnumTag other "Message")

/-- The message and the end of what was read of the payload. -/
def decodeEnvelope (bytes : List UInt8) : Except DecodeError (SyncMessage × Nat) := do
  Decode.ensure (envelopeHeaderSize ≤ bytes.length)
    (.messageTooShort "Message envelope" envelopeHeaderSize bytes.length)
  Decode.ensure (bytes.take 4 = messageSchema) (.invalidSchema messageSchema (bytes.take 4))
  let totalSize ← Decode.u32 bytes 4
  Decode.ensure (bytes.length = totalSize.toNat) (.sizeMismatch totalSize.toNat bytes.length)
  let tag ← Decode.u8 bytes 8
  let payload := bytes.drop envelopeHeaderSize
  let (minSize, typeName) ← minPayloadSize tag
  Decode.ensure (minSize ≤ payload.length)
    (.messageTooShort typeName (envelopeHeaderSize + minSize) bytes.length)
  (decodePayload payload tag).run 0

/-- `SyncMessage::try_decode`: where the reading of the payload ended is not looked at. -/
def tryDecode (bytes : List UInt8) : Except DecodeError SyncMessage :=
  (decodeEnvelope bytes).map Prod.fst

end SyncMessage

end Readers

end Subduction
