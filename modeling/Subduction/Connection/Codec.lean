/-
**Round trip and canonicity of the sync messages.**

The decoder accepts the envelope of a message whose total size fits four bytes, and inside it every
payload that *starts* with a form of the message. A form is what the encoder writes, except that the
fingerprints of a request may stand in any order and more than once.

* **`SyncMessage.decodeEnvelope_eq_ok`** — what the decoder accepts.
* **`SyncMessage.canonical_iff`** — an accepted byte string is the encoding of its message exactly
  when nothing follows the fields of the payload and the fingerprints of a request ascend.
* **`SyncMessage.roundTrip_iff_fits`**.
-/

import Subduction.Connection.Message

set_option linter.unusedSectionVars false

namespace Subduction

open SedimentreeId Decode List

/-! ### Sizes -/

section Sizes

variable [Bijou64]

theorem length_encodeRemoteHeads (heads : RemoteHeads) :
    (encodeRemoteHeads heads).length = remoteHeadsSize heads := by
  simp [encodeRemoteHeads, remoteHeadsSize]
  omega

theorem length_encodeItem {α : Type} (item : Signed α × Blob) :
    (encodeItem item).length = itemSize item := by
  simp [encodeItem, encodeBlob, itemSize, Bijou64.encodedLen, Nat.add_assoc]

theorem length_flatMap_encodeItem {α : Type} (items : List (Signed α × Blob)) :
    (items.flatMap encodeItem).length = (items.map itemSize).sum := by
  rw [length_flatMap]
  exact congrArg List.sum (map_congr_left fun item _ => length_encodeItem item)

theorem length_encodeSyncDiff (diff : SyncDiff) :
    (encodeSyncDiff diff).length = syncDiffSize diff := by
  simp only [encodeSyncDiff, length_append, length_flatMap_encodeItem, length_encodeCount]
  simp [syncDiffSize]
  omega

theorem length_encodeSyncResult (result : SyncResult) :
    (encodeSyncResult result).length = 1 + syncResultSize result := by
  cases result with
  | ok diff =>
    show (encodeSyncDiff diff).length + 1 = 1 + syncDiffSize diff
    rw [length_encodeSyncDiff, Nat.add_comm]
  | notFound => rfl
  | unauthorized => rfl

namespace SyncMessage

theorem length_encodePayload (message : SyncMessage) :
    message.encodePayload.length = message.payloadSize := by
  cases message with
  | looseCommit id signed blob heads | fragment id signed blob heads =>
    simp only [encodePayload, payloadSize, length_append, length_encodeRemoteHeads,
      length_encodeItem, length_asBytes]
    omega
  | batchSyncRequest request =>
    simp [encodePayload, payloadSize, encodeBatchSyncRequest]
    omega
  | batchSyncResponse response =>
    simp only [encodePayload, payloadSize, encodeBatchSyncResponse, length_append,
      length_encodeRemoteHeads, length_encodeSyncResult, length_asBytes,
      PeerId.length_asBytes, length_encodeU64]
    omega
  | removeSubscriptions ids => simp [encodePayload, payloadSize, encodeRemoveSubscriptions]
  | dataRequestRejected id => simp [encodePayload, payloadSize]
  | headsUpdate id heads => simp [encodePayload, payloadSize, length_encodeRemoteHeads]

theorem length_encode (message : SyncMessage) : message.encode.length = message.encodedSize := by
  simp only [encode, encodedSize, length_append, length_encodeCount, length_encodePayload,
    messageSchema, envelopeHeaderSize, length_cons, length_nil]

end SyncMessage

end Sizes

/-! ### What the readers accept -/

section Readers

variable {buf : List UInt8}

theorem Reads.fixed {α : Type} {read : Nat → Except DecodeError α} {write : α → List UInt8} {size : Nat}
    (accepts : ∀ start value, read start = .ok value ↔ write value <+: buf.drop start)
    (length : ∀ value, (write value).length = size) :
    Reads buf (.reading fun offset => (read offset).map (·, size)) (Written (fun _ => True) write) := by
  refine Reads.reading fun start _ value taken => ?_
  cases result : read start with
  | error failure =>
    have nothing : ¬ write value <+: buf.drop start := fun stands =>
      nomatch result.symm.trans ((accepts start value).mpr stands)
    simp [Except.map, Written, nothing]
  | ok found =>
    have stands := (accepts start found).mp result
    constructor
    · intro done
      obtain ⟨rfl, rfl⟩ := Prod.mk.inj (Except.ok.inj done)
      exact ⟨_, ⟨trivial, rfl⟩, stands, (length found).symm⟩
    · rintro ⟨_, ⟨_, rfl⟩, standsValue, rfl⟩
      obtain rfl := Except.ok.inj (result.symm.trans ((accepts start value).mpr standsValue))
      rw [length]
      rfl

theorem readU8_reads : Reads buf (readU8 buf) (Written (fun _ => True) fun byte => [byte]) :=
  Reads.fixed (fun _ _ => u8_eq_ok) fun _ => rfl

theorem readU16_reads :
    Reads buf (readU16 buf) (Written (fun _ => True) fun number => encodeCount 2 number.toNat) := by
  refine Reads.fixed (fun start number => ?_) fun _ => length_encodeCount 2 _
  rw [u16_eq_ok, encodeCount]
  simp

theorem readU32_reads :
    Reads buf (readU32 buf) (Written (fun _ => True) fun number => encodeCount 4 number.toNat) := by
  refine Reads.fixed (fun start number => ?_) fun _ => length_encodeCount 4 _
  rw [u32_eq_ok, encodeCount]
  simp

theorem readU64_reads : Reads buf (readU64 buf) (Written (fun _ => True) encodeU64) :=
  Reads.fixed (fun _ _ => u64_eq_ok) length_encodeU64

theorem readArray_reads {n : Nat} (positive : 0 < n) :
    Reads buf (readArray n buf) (Written (fun _ => True) (bytesBE n)) :=
  Reads.fixed (fun _ _ => array_eq_ok positive) (length_bytesBE n)

theorem readSedimentreeId_reads :
    Reads buf (readSedimentreeId buf) (Written (fun _ => True) SedimentreeId.asBytes) :=
  (readArray_reads (by decide)).wrapped (fun _ => rfl) fun _ => rfl

theorem readCommitId_reads : Reads buf (readCommitId buf) (Written (fun _ => True) CommitId.asBytes) :=
  (readArray_reads (by decide)).wrapped (fun _ => rfl) fun _ => rfl

theorem readPeerId_reads : Reads buf (readPeerId buf) (Written (fun _ => True) PeerId.asBytes) :=
  (readArray_reads (by decide)).wrapped (fun _ => rfl) fun _ => rfl

theorem readFingerprint_reads :
    Reads buf (readFingerprint buf) (Written (fun _ => True) Fingerprint.asBytes) :=
  readU64_reads.wrapped (fun _ => rfl) fun _ => rfl

theorem readSlice_reads (size : Nat) :
    Reads buf (readSlice buf size) (Written (fun slice => slice.length = size) fun slice => slice) := by
  refine Reads.reading fun start inside slice taken => ?_
  by_cases fits : start + size ≤ buf.length
  · have length : ((buf.drop start).take size).length = size := by
      rw [length_take, length_drop]
      omega
    rw [if_pos fits]
    constructor
    · intro done
      obtain ⟨rfl, rfl⟩ := Prod.mk.inj (Except.ok.inj done)
      exact ⟨_, ⟨length, rfl⟩, take_prefix _ _, length.symm⟩
    · rintro ⟨form, ⟨rfl, whole⟩, stands, rfl⟩
      obtain rfl : form = slice := whole
      rw [← prefix_iff_eq_take.mp stands]
  · rw [if_neg fits]
    constructor
    · intro impossible
      exact nomatch impossible
    · rintro ⟨form, ⟨rfl, whole⟩, stands, rfl⟩
      obtain rfl : form = slice := whole
      exact absurd (isPrefix_drop_length (.inr inside) stands) fits

section Blobs

variable [Bijou64Codec] [LawfulBijou64]

theorem readBijou64_reads :
    Reads buf (readBijou64 buf) (Written (fun _ => True) Bijou64.encode) := by
  refine Reads.reading fun start _ number size => ?_
  rw [bijou64_eq_ok]
  constructor
  · rintro ⟨stands, rfl⟩
    exact ⟨_, ⟨trivial, rfl⟩, stands, rfl⟩
  · rintro ⟨_, ⟨_, rfl⟩, stands, rfl⟩
    exact ⟨stands, rfl⟩

theorem readBijou64AsUsize_reads : Reads buf (readBijou64AsUsize buf)
      (Written (fun size => size < 2 ^ 64) fun size => Bijou64.encode (UInt64.ofNat size)) := by
  have next (val : UInt64) : Reads buf (if val.toNat ≤ usizeMax then pure val.toNat
        else throw (.blobTooLarge val.toNat usizeMax) : Cursor DecodeError Nat)
        fun size form => size = val.toNat ∧ form = [] := by
    rw [if_pos (by unfold usizeMax; have := val.toNat_lt; omega)]
    exact Reads.pure _
  refine (readBijou64_reads.bind next).congr fun size form => ?_
  simp only [Written, true_and, and_assoc, existsAndEq, append_nil]
  constructor
  · rintro ⟨val, rfl, rfl⟩
    exact ⟨val.toNat_lt, by rw [UInt64.ofNat_toNat]⟩
  · rintro ⟨small, rfl⟩
    exact ⟨UInt64.ofNat size, (UInt64.toNat_ofNat_of_lt' small).symm, rfl⟩

def Blob.Fits (blob : Blob) : Prop := blob.contents.length < 2 ^ 64

theorem readBlob_reads : Reads buf (readBlob buf) (Written Blob.Fits encodeBlob) := by
  refine (readBijou64AsUsize_reads.bind fun size => (readSlice_reads size).bind fun contents =>
    Reads.pure (⟨contents⟩ : Blob)).congr fun blob form => ?_
  simp only [Written, true_and, and_assoc, existsAndEq, append_nil]
  constructor
  · rintro ⟨contents, small, rfl, rfl⟩
    exact ⟨small, rfl⟩
  · rintro ⟨small, rfl⟩
    exact ⟨blob.contents, small, rfl, rfl⟩

end Blobs

def RemoteHeads.Fits (heads : RemoteHeads) : Prop := heads.heads.length < 2 ^ 32

theorem decodeRemoteHeads_reads :
    Reads buf (decodeRemoteHeads buf) (Written RemoteHeads.Fits encodeRemoteHeads) := by
  refine (readU64_reads.bind fun counter => readU32_reads.bind fun count =>
    (readCommitId_reads.times_written count.toNat).bind fun heads =>
      Reads.pure (⟨counter, heads⟩ : RemoteHeads)).congr fun remoteHeads form => ?_
  simp only [Written, true_and, and_assoc, existsAndEq, append_nil, implies_true]
  constructor
  · rintro ⟨counter, count, heads, size, rfl, rfl⟩
    refine ⟨size.trans_lt count.toNat_lt, ?_⟩
    simp only [encodeRemoteHeads, size, append_assoc]
  · rintro ⟨small, rfl⟩
    have count : (UInt32.ofNat remoteHeads.heads.length).toNat = remoteHeads.heads.length :=
      UInt32.toNat_ofNat_of_lt' small
    refine ⟨remoteHeads.counter, UInt32.ofNat remoteHeads.heads.length, remoteHeads.heads, count.symm, rfl, ?_⟩
    simp only [encodeRemoteHeads, count, append_assoc]

section Items

variable [Bijou64Codec] [LawfulBijou64] [Ed25519]

/-- **A signed item with its blob** is read when the decoder of signed payloads reads the item. -/
def ItemFits {α : Type} [DecodeFields α] (good : α → Prop) (item : Signed α × Blob) : Prop :=
  Signed.Encoded good item.1 ∧ item.2.Fits

theorem readItem_reads {α : Type} [DecodeFields α] {good : α → Prop} (laws : CodecLaws α good) :
    Reads buf (readItem buf) (Written (ItemFits good) (encodeItem (α := α))) := by
  refine ((Signed.readSigned_reads laws buf).bind fun signed => readBlob_reads.bind fun blob =>
    Reads.pure (signed, blob)).congr fun item form => ?_
  simp only [Written, true_and, and_assoc, existsAndEq, append_nil]
  constructor
  · rintro ⟨signed, blob, encoded, small, rfl, rfl⟩
    exact ⟨⟨encoded, small⟩, rfl⟩
  · rintro ⟨⟨encoded, small⟩, rfl⟩
    exact ⟨item.1, item.2, encoded, small, rfl, rfl⟩

/-- The counts of a diff fit two bytes, and its items are read. -/
structure SyncDiff.Fits (diff : SyncDiff) : Prop where
  commitCount : diff.missingCommits.length < 2 ^ 16
  fragmentCount : diff.missingFragments.length < 2 ^ 16
  requestedCommitCount : diff.requesting.commitFingerprints.length < 2 ^ 16
  requestedFragmentCount : diff.requesting.fragmentFingerprints.length < 2 ^ 16
  commits : ∀ item ∈ diff.missingCommits, ItemFits LooseCommit.CountsFit item
  fragments : ∀ item ∈ diff.missingFragments, ItemFits Fragment.CountsFit item

theorem exists_toNat_eq {count : Nat} (small : count < 2 ^ 16) : ∃ read : UInt16, count = read.toNat :=
  ⟨UInt16.ofNat count, (UInt16.toNat_ofNat_of_lt' small).symm⟩

theorem decodeSyncDiff_reads :
    Reads buf (decodeSyncDiff buf) (Written SyncDiff.Fits encodeSyncDiff) := by
  refine (readU16_reads.bind fun commitCount => readU16_reads.bind fun fragmentCount =>
    readU16_reads.bind fun requestedCommitCount => readU16_reads.bind fun requestedFragmentCount =>
    ((readItem_reads looseCommit_laws).times_written commitCount.toNat).bind fun commits =>
    ((readItem_reads fragment_laws).times_written fragmentCount.toNat).bind fun fragments =>
    (readFingerprint_reads.times_written requestedCommitCount.toNat).bind fun commitFps =>
    (readFingerprint_reads.times_written requestedFragmentCount.toNat).bind fun fragmentFps =>
    Reads.pure (⟨commits, fragments, commitFps, fragmentFps⟩ : SyncDiff)).congr fun diff form => ?_
  simp only [Written, true_and, and_assoc, existsAndEq, append_nil, implies_true]
  constructor
  · rintro ⟨n, m, k, l, commits, fragments, commitFps, fragmentFps, commitCount, commitsFit, fragmentCount,
      fragmentsFit, requestedCommitCount, requestedFragmentCount, rfl, rfl⟩
    refine ⟨⟨commitCount ▸ n.toNat_lt, fragmentCount ▸ m.toNat_lt, requestedCommitCount ▸ k.toNat_lt,
      requestedFragmentCount ▸ l.toNat_lt, commitsFit, fragmentsFit⟩, ?_⟩
    simp only [encodeSyncDiff, commitCount, fragmentCount, requestedCommitCount,
      requestedFragmentCount, append_assoc]
  · rintro ⟨fits, rfl⟩
    obtain ⟨n, commitCount⟩ := exists_toNat_eq fits.commitCount
    obtain ⟨m, fragmentCount⟩ := exists_toNat_eq fits.fragmentCount
    obtain ⟨k, requestedCommitCount⟩ := exists_toNat_eq fits.requestedCommitCount
    obtain ⟨l, requestedFragmentCount⟩ := exists_toNat_eq fits.requestedFragmentCount
    refine ⟨n, m, k, l, _, _, _, _, commitCount, fits.commits, fragmentCount, fits.fragments,
      requestedCommitCount, requestedFragmentCount, rfl, ?_⟩
    simp only [encodeSyncDiff, commitCount, fragmentCount, requestedCommitCount,
      requestedFragmentCount, append_assoc]

def SyncResult.Fits : SyncResult → Prop
  | .ok diff => diff.Fits
  | .notFound => True
  | .unauthorized => True

theorem decodeSyncResult_next (resultTag : UInt8) : Reads buf (match resultTag with
      | 0x00 => do
          let diff ← decodeSyncDiff buf
          pure (.ok diff)
      | 0x01 => pure .notFound
      | 0x02 => pure .unauthorized
      | other => throw (.invalidEnumTag other "SyncResult") : Cursor DecodeError SyncResult)
      fun result form => result.Fits ∧ resultTag :: form = encodeSyncResult result := by
  split
  · refine (decodeSyncDiff_reads.bind fun diff => Reads.pure (SyncResult.ok diff)).congr
      fun result form => ?_
    constructor
    · rintro ⟨diff, _, _, ⟨fits, rfl⟩, ⟨rfl, rfl⟩, rfl⟩
      exact ⟨fits, by rw [append_nil]; rfl⟩
    · rintro ⟨fits, whole⟩
      cases result with
      | ok diff =>
        refine ⟨diff, form, [], ⟨fits, tail_eq_of_cons_eq whole⟩, ⟨rfl, rfl⟩, ?_⟩
        rw [append_nil]
      | notFound | unauthorized => exact absurd (head_eq_of_cons_eq whole) (by decide)
  · refine (Reads.pure _).congr fun result form => ?_
    cases result <;> simp [SyncResult.Fits, encodeSyncResult]
  · refine (Reads.pure _).congr fun result form => ?_
    cases result <;> simp [SyncResult.Fits, encodeSyncResult]
  · rename_i notOk notFound notUnauthorized
    refine (Reads.throw _).congr fun result form => ⟨False.elim, ?_⟩
    rintro ⟨-, whole⟩
    cases result with
    | ok diff => exact notOk (head_eq_of_cons_eq whole)
    | notFound => exact notFound (head_eq_of_cons_eq whole)
    | unauthorized => exact notUnauthorized (head_eq_of_cons_eq whole)

theorem decodeSyncResult_reads :
    Reads buf (decodeSyncResult buf) (Written SyncResult.Fits encodeSyncResult) := by
  refine (readU8_reads.bind decodeSyncResult_next).congr fun result form => ?_
  constructor
  · rintro ⟨resultTag, _, back, ⟨-, rfl⟩, ⟨fits, whole⟩, rfl⟩
    exact ⟨fits, whole⟩
  · rintro ⟨fits, rfl⟩
    cases result with
    | ok diff => exact ⟨0x00, _, _, ⟨trivial, rfl⟩, ⟨fits, rfl⟩, rfl⟩
    | notFound => exact ⟨0x01, _, _, ⟨trivial, rfl⟩, ⟨fits, rfl⟩, rfl⟩
    | unauthorized => exact ⟨0x02, _, _, ⟨trivial, rfl⟩, ⟨fits, rfl⟩, rfl⟩

theorem readSubscribe_next (subscribeByte : UInt8) : Reads buf (match subscribeByte with
      | 0x00 => pure false
      | 0x01 => pure true
      | other => throw (.invalidEnumTag other "Subscribe") : Cursor DecodeError Bool)
      fun subscribe form => subscribeByte = subscribe.toUInt8 ∧ form = [] := by
  split
  · refine (Reads.pure _).congr fun subscribe form => ?_
    cases subscribe <;> simp [Bool.toUInt8]
  · refine (Reads.pure _).congr fun subscribe form => ?_
    cases subscribe <;> simp [Bool.toUInt8]
  · rename_i notFalse notTrue
    refine (Reads.throw _).congr fun subscribe form => ⟨False.elim, ?_⟩
    rintro ⟨same, -⟩
    cases subscribe with
    | false => exact notFalse same
    | true => exact notTrue same

theorem readSubscribe_reads :
    Reads buf (readSubscribe buf) (Written (fun _ => True) fun subscribe => [subscribe.toUInt8]) := by
  refine (readU8_reads.bind readSubscribe_next).congr fun subscribe form => ?_
  simp only [Written, true_and, and_assoc, existsAndEq, append_nil]

end Items

end Readers

/-! ### What the decoder accepts -/

namespace SyncMessage

section Forms

variable [Bijou64Codec] [LawfulBijou64] [Ed25519] {buf : List UInt8}

/-- A request with its fingerprints in the given order. -/
def requestForm (request : BatchSyncRequest) (commitFps fragmentFps : List Fingerprint) :
    List UInt8 :=
  request.id.asBytes ++ request.reqId.requestor.asBytes ++ encodeU64 request.reqId.nonce
    ++ [request.subscribe.toUInt8]
    ++ encodeU64 request.fingerprintSummary.seed.key0 ++ encodeU64 request.fingerprintSummary.seed.key1
    ++ encodeCount 2 commitFps.length ++ encodeCount 2 fragmentFps.length
    ++ commitFps.flatMap Fingerprint.asBytes ++ fragmentFps.flatMap Fingerprint.asBytes

theorem encodeBatchSyncRequest_eq (request : BatchSyncRequest) : encodeBatchSyncRequest request =
      requestForm request (ascendingList request.fingerprintSummary.commitFingerprints)
        (ascendingList request.fingerprintSummary.fragmentFingerprints) := by
  simp only [encodeBatchSyncRequest, requestForm, length_ascendingList]

/-- The lists of fingerprints that are read as the two sets of a request. -/
structure Lists (request : BatchSyncRequest) (commitFps fragmentFps : List Fingerprint) : Prop where
  commits : commitFps.toFinset = request.fingerprintSummary.commitFingerprints
  fragments : fragmentFps.toFinset = request.fingerprintSummary.fragmentFingerprints
  commitCount : commitFps.length < 2 ^ 16
  fragmentCount : fragmentFps.length < 2 ^ 16

/-- **The payloads that are read as a message**: what the encoder writes when all of it fits, except
that the fingerprints of a request stand in any order and may be repeated. -/
def Form : SyncMessage → List UInt8 → Prop
  | batchSyncRequest request, form => ∃ commitFps fragmentFps, Lists request commitFps fragmentFps ∧
      form = requestForm request commitFps fragmentFps
  | looseCommit id signed blob senderHeads, form =>
    (senderHeads.Fits ∧ ItemFits LooseCommit.CountsFit (signed, blob)) ∧
      form = encodePayload (.looseCommit id signed blob senderHeads)
  | fragment id signed blob senderHeads, form =>
    (senderHeads.Fits ∧ ItemFits Fragment.CountsFit (signed, blob)) ∧
      form = encodePayload (.fragment id signed blob senderHeads)
  | batchSyncResponse response, form =>
    (response.result.Fits ∧ response.responderHeads.Fits) ∧
      form = encodePayload (.batchSyncResponse response)
  | removeSubscriptions ids, form =>
    ids.length < 2 ^ 16 ∧ form = encodePayload (.removeSubscriptions ids)
  | dataRequestRejected id, form => form = encodePayload (.dataRequestRejected id)
  | headsUpdate id heads, form => heads.Fits ∧ form = encodePayload (.headsUpdate id heads)

theorem decodePushed_reads {α : Type} [DecodeFields α] {good : α → Prop} (laws : CodecLaws α good)
    (mk : SedimentreeId → Signed α → Blob → RemoteHeads → SyncMessage) :
    Reads buf (decodePushed mk buf) fun message form =>
      ∃ id signed blob senderHeads, message = mk id signed blob senderHeads ∧
        (senderHeads.Fits ∧ ItemFits good (signed, blob)) ∧
        form = id.asBytes ++ encodeRemoteHeads senderHeads ++ encodeItem (signed, blob) := by
  refine (readSedimentreeId_reads.bind fun id => decodeRemoteHeads_reads.bind fun senderHeads =>
    (readItem_reads laws).bind fun item => Reads.pure (mk id item.1 item.2 senderHeads)).congr
    fun message form => ?_
  simp only [Written, true_and, and_assoc, existsAndEq, append_nil, Prod.exists]
  constructor
  · rintro ⟨id, heads, signed, blob, headsFit, itemFits, rfl, rfl⟩
    exact ⟨id, signed, blob, heads, rfl, headsFit, itemFits, by rw [append_assoc]⟩
  · rintro ⟨id, signed, blob, heads, rfl, headsFit, itemFits, rfl⟩
    exact ⟨id, heads, signed, blob, headsFit, itemFits, rfl, by rw [append_assoc]⟩

theorem decodeLooseCommit_reads :
    Reads buf (decodeLooseCommit buf) fun message form => message.tag = 0x00 ∧ message.Form form := by
  refine (decodePushed_reads looseCommit_laws .looseCommit).congr fun message form => ?_
  constructor
  · rintro ⟨id, signed, blob, senderHeads, rfl, fits, rfl⟩
    exact ⟨rfl, fits, rfl⟩
  · rintro ⟨isTag, shaped⟩
    cases message with
    | looseCommit id signed blob senderHeads => exact ⟨id, signed, blob, senderHeads, rfl, shaped⟩
    | _ => simp [tag] at isTag

theorem decodeFragment_reads :
    Reads buf (decodeFragment buf) fun message form => message.tag = 0x01 ∧ message.Form form := by
  refine (decodePushed_reads fragment_laws .fragment).congr fun message form => ?_
  constructor
  · rintro ⟨id, signed, blob, senderHeads, rfl, fits, rfl⟩
    exact ⟨rfl, fits, rfl⟩
  · rintro ⟨isTag, shaped⟩
    cases message with
    | fragment id signed blob senderHeads => exact ⟨id, signed, blob, senderHeads, rfl, shaped⟩
    | _ => simp [tag] at isTag

theorem decodeBatchSyncRequest_reads : Reads buf (decodeBatchSyncRequest buf) fun message form =>
      message.tag = 0x04 ∧ message.Form form := by
  refine (readSedimentreeId_reads.bind fun id => readPeerId_reads.bind fun requestor =>
    readU64_reads.bind fun nonce => readSubscribe_reads.bind fun subscribe =>
    readU64_reads.bind fun key0 => readU64_reads.bind fun key1 =>
    readU16_reads.bind fun commitCount => readU16_reads.bind fun fragmentCount =>
    (readFingerprint_reads.times_written commitCount.toNat).bind fun commitFps =>
    (readFingerprint_reads.times_written fragmentCount.toNat).bind fun fragmentFps =>
    Reads.pure (SyncMessage.batchSyncRequest ⟨id, ⟨requestor, nonce⟩,
      ⟨⟨key0, key1⟩, commitFps.toFinset, fragmentFps.toFinset⟩, subscribe⟩)).congr fun message form => ?_
  simp only [Written, true_and, and_assoc, existsAndEq, append_nil, implies_true]
  constructor
  · rintro ⟨id, requestor, nonce, subscribe, key0, key1, n, m, commitFps, fragmentFps, commitCount,
      fragmentCount, rfl, rfl⟩
    refine ⟨rfl, commitFps, fragmentFps, ⟨rfl, rfl, commitCount ▸ n.toNat_lt, fragmentCount ▸ m.toNat_lt⟩, ?_⟩
    simp only [requestForm, commitCount, fragmentCount, append_assoc]
  · rintro ⟨isTag, shaped⟩
    cases message with
    | batchSyncRequest request =>
      obtain ⟨commitFps, fragmentFps, lists, rfl⟩ := shaped
      obtain ⟨n, commitCount⟩ := exists_toNat_eq lists.commitCount
      obtain ⟨m, fragmentCount⟩ := exists_toNat_eq lists.fragmentCount
      refine ⟨request.id, request.reqId.requestor, request.reqId.nonce, request.subscribe,
        request.fingerprintSummary.seed.key0, request.fingerprintSummary.seed.key1, n, m, commitFps,
        fragmentFps, commitCount, fragmentCount, ?_, ?_⟩
      · rw [lists.commits, lists.fragments]
      · simp only [requestForm, commitCount, fragmentCount, append_assoc]
    | _ => simp [tag] at isTag

theorem decodeBatchSyncResponse_reads : Reads buf (decodeBatchSyncResponse buf) fun message form =>
      message.tag = 0x05 ∧ message.Form form := by
  refine (readPeerId_reads.bind fun requestor => readU64_reads.bind fun nonce =>
    readSedimentreeId_reads.bind fun id => decodeSyncResult_reads.bind fun result =>
    decodeRemoteHeads_reads.bind fun responderHeads =>
    Reads.pure (SyncMessage.batchSyncResponse ⟨⟨requestor, nonce⟩, id, result, responderHeads⟩)).congr
    fun message form => ?_
  simp only [Written, true_and, and_assoc, existsAndEq, append_nil]
  constructor
  · rintro ⟨requestor, nonce, id, result, heads, resultFits, headsFit, rfl, rfl⟩
    refine ⟨rfl, ⟨resultFits, headsFit⟩, ?_⟩
    simp only [encodePayload, encodeBatchSyncResponse, append_assoc]
  · rintro ⟨isTag, shaped⟩
    cases message with
    | batchSyncResponse response =>
      obtain ⟨⟨resultFits, headsFit⟩, rfl⟩ := shaped
      refine ⟨_, _, _, _, _, resultFits, headsFit, rfl, ?_⟩
      simp only [encodePayload, encodeBatchSyncResponse, append_assoc]
    | _ => simp [tag] at isTag

theorem decodeRemoveSubscriptions_reads :
    Reads buf (decodeRemoveSubscriptions buf) fun message form =>
      message.tag = 0x06 ∧ message.Form form := by
  refine (readU16_reads.bind fun count =>
    (readSedimentreeId_reads.times_written count.toNat).bind fun ids =>
    Reads.pure (SyncMessage.removeSubscriptions ids)).congr fun message form => ?_
  simp only [Written, true_and, and_assoc, existsAndEq, append_nil, implies_true]
  constructor
  · rintro ⟨n, ids, count, rfl, rfl⟩
    refine ⟨rfl, count ▸ n.toNat_lt, ?_⟩
    simp only [encodePayload, encodeRemoveSubscriptions, count]
  · rintro ⟨isTag, shaped⟩
    cases message with
    | removeSubscriptions ids =>
      obtain ⟨small, rfl⟩ := shaped
      obtain ⟨n, count⟩ := exists_toNat_eq small
      refine ⟨n, ids, count, rfl, ?_⟩
      simp only [encodePayload, encodeRemoveSubscriptions, count]
    | _ => simp [tag] at isTag

theorem decodeDataRequestRejected_reads :
    Reads buf (decodeDataRequestRejected buf) fun message form =>
      message.tag = 0x07 ∧ message.Form form := by
  refine (readSedimentreeId_reads.bind fun id => Reads.pure (SyncMessage.dataRequestRejected id)).congr
    fun message form => ?_
  simp only [Written, true_and, and_assoc, existsAndEq, append_nil]
  constructor
  · rintro ⟨id, rfl, rfl⟩
    exact ⟨rfl, rfl⟩
  · rintro ⟨isTag, shaped⟩
    cases message with
    | dataRequestRejected id => exact ⟨id, rfl, shaped⟩
    | _ => simp [tag] at isTag

theorem decodeHeadsUpdate_reads : Reads buf (decodeHeadsUpdate buf) fun message form =>
      message.tag = 0x08 ∧ message.Form form := by
  refine (readSedimentreeId_reads.bind fun id => decodeRemoteHeads_reads.bind fun heads =>
    Reads.pure (SyncMessage.headsUpdate id heads)).congr fun message form => ?_
  simp only [Written, true_and, and_assoc, existsAndEq, append_nil]
  constructor
  · rintro ⟨id, heads, headsFit, rfl, rfl⟩
    exact ⟨rfl, headsFit, rfl⟩
  · rintro ⟨isTag, shaped⟩
    cases message with
    | headsUpdate id heads => exact ⟨id, heads, shaped.1, rfl, shaped.2⟩
    | _ => simp [tag] at isTag

/-- **The decoder of a payload accepts the forms of the messages with the tag.** -/
theorem decodePayload_reads (byte : UInt8) : Reads buf (decodePayload buf byte) fun message form =>
      message.tag = byte ∧ message.Form form := by
  unfold decodePayload
  split
  · exact decodeLooseCommit_reads
  · exact decodeFragment_reads
  · exact decodeBatchSyncRequest_reads
  · exact decodeBatchSyncResponse_reads
  · exact decodeRemoveSubscriptions_reads
  · exact decodeDataRequestRejected_reads
  · exact decodeHeadsUpdate_reads
  · refine (Reads.throw _).congr fun message form => ⟨False.elim, ?_⟩
    rintro ⟨rfl, _⟩
    cases message <;> simp_all [tag]

theorem minSignedSize_le_of_itemFits {α : Type} [DecodeFields α] {good : α → Prop}
    (laws : CodecLaws α good) {item : Signed α × Blob} (fits : ItemFits good item) :
    DecodeFields.minSignedSize α + 1 ≤ (encodeItem item).length := by
  obtain ⟨⟨_, value, isGood, whole⟩, _⟩ := fits
  have minimal := laws.minSignedSize_le value item.1.issuer isGood
  have blobSize := LawfulBijou64.encode_pos (UInt64.ofNat item.2.contents.length)
  simp only [encodeItem, encodeBlob, whole, length_append, length_bytesBE]
  omega

theorem Form.minPayloadSize {message : SyncMessage} {form : List UInt8} (shaped : message.Form form) :
    ∃ size name, minPayloadSize message.tag = .ok (size, name) ∧ size ≤ form.length := by
  cases message with
  | looseCommit id signed blob senderHeads =>
    obtain ⟨⟨_, itemFits⟩, rfl⟩ := shaped
    have minimal := minSignedSize_le_of_itemFits looseCommit_laws itemFits
    refine ⟨_, _, rfl, ?_⟩
    simp only [encodePayload, length_append, length_asBytes,
      length_encodeRemoteHeads, remoteHeadsSize]
    simp only [DecodeFields.minSignedSize, LooseCommit.codecFixedFieldsSize] at minimal
    omega
  | fragment id signed blob senderHeads =>
    obtain ⟨⟨_, itemFits⟩, rfl⟩ := shaped
    have minimal := minSignedSize_le_of_itemFits fragment_laws itemFits
    refine ⟨_, _, rfl, ?_⟩
    simp only [encodePayload, length_append, length_asBytes,
      length_encodeRemoteHeads, remoteHeadsSize]
    simp only [DecodeFields.minSignedSize, Fragment.codecFixedFieldsSize] at minimal
    omega
  | batchSyncRequest request =>
    obtain ⟨commitFps, fragmentFps, _, rfl⟩ := shaped
    refine ⟨_, _, rfl, ?_⟩
    simp [requestForm]
    omega
  | batchSyncResponse response =>
    obtain ⟨_, rfl⟩ := shaped
    refine ⟨_, _, rfl, ?_⟩
    simp only [length_encodePayload, payloadSize, remoteHeadsSize]
    omega
  | removeSubscriptions ids =>
    obtain ⟨_, rfl⟩ := shaped
    refine ⟨_, _, rfl, ?_⟩
    simp only [length_encodePayload, payloadSize]
    omega
  | dataRequestRejected id =>
    obtain rfl := shaped
    refine ⟨_, _, rfl, ?_⟩
    simp only [length_encodePayload, payloadSize, le_refl]
  | headsUpdate id heads =>
    obtain ⟨_, rfl⟩ := shaped
    refine ⟨_, _, rfl, ?_⟩
    simp only [length_encodePayload, payloadSize, remoteHeadsSize]
    omega

def envelope (byte : UInt8) (payload : List UInt8) : List UInt8 :=
  messageSchema ++ encodeCount 4 (envelopeHeaderSize + payload.length) ++ [byte] ++ payload

theorem encode_eq_envelope (message : SyncMessage) :
    message.encode = envelope message.tag message.encodePayload := by
  rw [encode, envelope, length_encodePayload]

theorem length_envelope (byte : UInt8) (payload : List UInt8) :
    (envelope byte payload).length = envelopeHeaderSize + payload.length := by
  simp only [envelope, messageSchema, envelopeHeaderSize, length_append, length_encodeCount,
    length_cons, length_nil]

theorem drop_envelope (byte : UInt8) (payload : List UInt8) :
    (envelope byte payload).drop envelopeHeaderSize = payload := by
  refine drop_left' ?_
  simp only [messageSchema, envelopeHeaderSize, length_append, length_encodeCount,
    length_cons, length_nil]

theorem eq_envelope_iff {bytes : List UInt8} {byte : UInt8} :
    bytes = envelope byte (bytes.drop envelopeHeaderSize) ∧ envelopeHeaderSize ≤ bytes.length ↔
      messageSchema <+: bytes ∧ encodeCount 4 bytes.length <+: bytes.drop 4 ∧
        [byte] <+: bytes.drop 8 := by
  have headSize : (messageSchema ++ encodeCount 4 bytes.length ++ [byte]).length =
      envelopeHeaderSize := by
    simp [messageSchema, envelopeHeaderSize]
  have head : messageSchema ++ encodeCount 4 bytes.length ++ [byte] <+: bytes ↔
      messageSchema <+: bytes ∧ encodeCount 4 bytes.length <+: bytes.drop 4 ∧
        [byte] <+: bytes.drop 8 := by
    rw [← drop_zero (l := bytes), append_isPrefix_drop, append_isPrefix_drop, and_assoc]
    simp [messageSchema]
  rw [← head]
  constructor
  · rintro ⟨whole, enough⟩
    have total : envelopeHeaderSize + (bytes.drop envelopeHeaderSize).length = bytes.length := by
      rw [length_drop]
      omega
    rw [envelope, total] at whole
    exact ⟨_, whole.symm⟩
  · rintro ⟨rest, whole⟩
    have dropped : bytes.drop envelopeHeaderSize = rest := by
      rw [← whole, ← headSize, drop_left]
    have total : bytes.length = envelopeHeaderSize + rest.length := by
      rw [← headSize, ← length_append, whole]
    rw [dropped, envelope, ← total]
    exact ⟨whole.symm, by omega⟩

theorem decodeEnvelope_eq_ok {bytes : List UInt8} {message : SyncMessage} {stop : Nat} :
    decodeEnvelope bytes = .ok (message, stop) ↔
      ∃ form rest, message.Form form ∧ bytes = envelope message.tag (form ++ rest) ∧
        bytes.length < 2 ^ 32 ∧ stop = form.length := by
  simp only [decodeEnvelope, bind_eq_ok, ensure_eq_ok, u32_eq_ok, u8_eq_ok, Prod.exists]
  constructor
  · rintro ⟨_, enough, _, schemaAt, total, totalAt, _, sameSize, byte, byteAt, minSize, name, _, _, _, done⟩
    obtain ⟨form, ⟨rfl, shaped⟩, ⟨rest, payload⟩, rfl⟩ :=
      (decodePayload_reads byte 0 (Nat.zero_le _) message stop).mp done
    have small : bytes.length < 2 ^ 32 := sameSize ▸ total.toNat_lt
    have count : encodeCount 4 bytes.length <+: bytes.drop 4 := by
      rw [sameSize, encodeCount]
      simpa using totalAt
    have whole := eq_envelope_iff.mpr ⟨schemaAt ▸ take_prefix 4 bytes, count, byteAt⟩
    refine ⟨form, rest, shaped, ?_, small, Nat.zero_add _⟩
    rw [payload]
    exact whole.1
  · rintro ⟨form, rest, shaped, whole, small, rfl⟩
    have size : bytes.length = envelopeHeaderSize + (form ++ rest).length := by
      rw [whole, length_envelope]
    have payload : bytes.drop envelopeHeaderSize = form ++ rest := by
      rw [whole, drop_envelope]
    have parts := eq_envelope_iff.mp ⟨by rw [payload]; exact whole, by omega⟩
    obtain ⟨minSize, name, minimal, bound⟩ := shaped.minPayloadSize
    have total : (UInt32.ofNat bytes.length).toNat = bytes.length := UInt32.toNat_ofNat_of_lt' small
    refine ⟨(), by omega, (), ?_, UInt32.ofNat bytes.length, parts.2.1, (), total.symm, message.tag,
      parts.2.2, minSize, name, minimal, (), ?_, ?_⟩
    · exact (prefix_iff_eq_take.mp parts.1).symm
    · rw [payload, length_append]
      omega
    · refine (decodePayload_reads message.tag 0 (Nat.zero_le _) message _).mpr
        ⟨form, ⟨rfl, shaped⟩, ?_, (Nat.zero_add _).symm⟩
      rw [payload, drop_zero]
      exact prefix_append _ _

theorem tryDecode_eq_ok {bytes : List UInt8} {message : SyncMessage} :
    tryDecode bytes = .ok message ↔ ∃ stop, decodeEnvelope bytes = .ok (message, stop) := by
  unfold tryDecode
  cases decodeEnvelope bytes with
  | error failure => simp [Except.map]
  | ok result => simp [Except.map, Prod.ext_iff]

end Forms

/-! ### Round trip -/

def commits : SyncMessage → List (Signed LooseCommit)
  | looseCommit _ signed _ _ => [signed]
  | batchSyncResponse ⟨_, _, .ok diff, _⟩ => diff.missingCommits.map Prod.fst
  | _ => []

def fragments : SyncMessage → List (Signed Fragment)
  | fragment _ signed _ _ => [signed]
  | batchSyncResponse ⟨_, _, .ok diff, _⟩ => diff.missingFragments.map Prod.fst
  | _ => []

def counts : SyncMessage → List Nat
  | batchSyncRequest request =>
    [request.fingerprintSummary.commitFingerprints.card,
      request.fingerprintSummary.fragmentFingerprints.card]
  | batchSyncResponse ⟨_, _, .ok diff, _⟩ =>
    [diff.missingCommits.length, diff.missingFragments.length,
      diff.requesting.commitFingerprints.length, diff.requesting.fragmentFingerprints.length]
  | removeSubscriptions ids => [ids.length]
  | _ => []

/-- **What fits the wire format**: the signed items are wire forms of signed values whose own counts
fit, every two-byte count fits, and the total size fits four bytes. -/
structure Fits [Bijou64Codec] [Ed25519] (message : SyncMessage) : Prop where
  commits : ∀ signed ∈ message.commits, Signed.Encoded LooseCommit.CountsFit signed
  fragments : ∀ signed ∈ message.fragments, Signed.Encoded Fragment.CountsFit signed
  counts : ∀ count ∈ message.counts, count < 2 ^ 16
  size : message.encodedSize < 2 ^ 32

section RoundTrip

variable [Bijou64Codec] [LawfulBijou64] [Ed25519]

theorem Form.fits {message : SyncMessage} {form : List UInt8} (shaped : message.Form form)
    (size : message.encodedSize < 2 ^ 32) : message.Fits := by
  cases message with
  | looseCommit id signed blob senderHeads =>
    exact ⟨by simpa [commits] using shaped.1.2.1, by simp [fragments], by simp [counts], size⟩
  | fragment id signed blob senderHeads =>
    exact ⟨by simp [commits], by simpa [fragments] using shaped.1.2.1, by simp [counts], size⟩
  | batchSyncRequest request =>
    obtain ⟨commitFps, fragmentFps, lists, _⟩ := shaped
    have commitCount := (toFinset_card_le commitFps).trans_lt lists.commitCount
    have fragmentCount := (toFinset_card_le fragmentFps).trans_lt lists.fragmentCount
    rw [lists.commits] at commitCount
    rw [lists.fragments] at fragmentCount
    exact ⟨by simp [commits], by simp [fragments],
      by simpa [counts] using ⟨commitCount, fragmentCount⟩, size⟩
  | batchSyncResponse response =>
    obtain ⟨reqId, id, result, heads⟩ := response
    cases result with
    | ok diff =>
      have fits : diff.Fits := shaped.1.1
      refine ⟨?_, ?_, ?_, size⟩
      · intro signed member
        obtain ⟨item, listed, rfl⟩ := mem_map.mp member
        exact (fits.commits item listed).1
      · intro signed member
        obtain ⟨item, listed, rfl⟩ := mem_map.mp member
        exact (fits.fragments item listed).1
      · simpa [counts] using ⟨fits.commitCount, fits.fragmentCount, fits.requestedCommitCount,
          fits.requestedFragmentCount⟩
    | notFound | unauthorized => exact ⟨by simp [commits], by simp [fragments], by simp [counts], size⟩
  | removeSubscriptions ids =>
    exact ⟨by simp [commits], by simp [fragments], by simpa [counts] using shaped.1, size⟩
  | dataRequestRejected id => exact ⟨by simp [commits], by simp [fragments], by simp [counts], size⟩
  | headsUpdate id heads => exact ⟨by simp [commits], by simp [fragments], by simp [counts], size⟩

theorem length_le_sum_itemSize {α : Type} {items : List (Signed α × Blob)} {item : Signed α × Blob}
    (member : item ∈ items) : item.2.contents.length ≤ (items.map itemSize).sum :=
  calc item.2.contents.length ≤ itemSize item := Nat.le_add_left _ _
    _ ≤ (items.map itemSize).sum :=
      single_le_sum (fun _ _ => Nat.zero_le _) _ (mem_map_of_mem member)

theorem Fits.form {message : SyncMessage} (fits : message.Fits) :
    message.Form message.encodePayload := by
  have size : message.payloadSize < 2 ^ 32 := by
    have total := fits.size
    unfold encodedSize at total
    omega
  cases message with
  | looseCommit id signed blob senderHeads =>
    simp only [payloadSize, itemSize, remoteHeadsSize] at size
    refine ⟨⟨?_, fits.commits signed (by simp [SyncMessage.commits]), ?_⟩, rfl⟩
    · unfold RemoteHeads.Fits
      omega
    · show blob.contents.length < 2 ^ 64
      omega
  | fragment id signed blob senderHeads =>
    simp only [payloadSize, itemSize, remoteHeadsSize] at size
    refine ⟨⟨?_, fits.fragments signed (by simp [SyncMessage.fragments]), ?_⟩, rfl⟩
    · unfold RemoteHeads.Fits
      omega
    · show blob.contents.length < 2 ^ 64
      omega
  | batchSyncRequest request =>
    have small := fits.counts
    simp only [SyncMessage.counts, forall_mem_cons] at small
    refine ⟨_, _, ⟨?_, ?_, ?_, ?_⟩, encodeBatchSyncRequest_eq request⟩
    · exact (eq_ascendingList_iff.mp rfl).2
    · exact (eq_ascendingList_iff.mp rfl).2
    · rw [length_ascendingList]
      exact small.1
    · rw [length_ascendingList]
      exact small.2.1
  | batchSyncResponse response =>
    obtain ⟨reqId, id, result, heads⟩ := response
    simp only [payloadSize, remoteHeadsSize] at size
    have headsFit : heads.Fits := by
      unfold RemoteHeads.Fits
      omega
    cases result with
    | ok diff =>
      have small := fits.counts
      simp only [SyncMessage.counts, forall_mem_cons] at small
      simp only [syncResultSize, syncDiffSize] at size
      refine ⟨⟨⟨small.1, small.2.1, small.2.2.1, small.2.2.2.1, fun item member => ⟨?_, ?_⟩,
        fun item member => ⟨?_, ?_⟩⟩, headsFit⟩, rfl⟩
      · exact fits.commits item.1 (mem_map_of_mem member)
      · have bound := length_le_sum_itemSize member
        show item.2.contents.length < 2 ^ 64
        omega
      · exact fits.fragments item.1 (mem_map_of_mem member)
      · have bound := length_le_sum_itemSize member
        show item.2.contents.length < 2 ^ 64
        omega
    | notFound => exact ⟨⟨trivial, headsFit⟩, rfl⟩
    | unauthorized => exact ⟨⟨trivial, headsFit⟩, rfl⟩
  | removeSubscriptions ids => exact ⟨fits.counts _ (by simp [SyncMessage.counts]), rfl⟩
  | dataRequestRejected id => exact rfl
  | headsUpdate id heads =>
    simp only [payloadSize, remoteHeadsSize] at size
    refine ⟨?_, rfl⟩
    unfold RemoteHeads.Fits
    omega

/-- **Round trip**: the encoder writes as many bytes as it computes beforehand, and the message is
decoded from them exactly when it fits the wire format. -/
theorem roundTrip_iff_fits (message : SyncMessage) : message.encode.length = message.encodedSize ∧
      (tryDecode message.encode = .ok message ↔ message.Fits) := by
  refine ⟨length_encode message, ?_⟩
  rw [tryDecode_eq_ok]
  simp only [decodeEnvelope_eq_ok, length_encode]
  constructor
  · rintro ⟨_, form, rest, shaped, _, small, _⟩
    exact shaped.fits small
  · intro fits
    refine ⟨_, message.encodePayload, [], fits.form, ?_, fits.size, rfl⟩
    rw [List.append_nil, encode_eq_envelope]

theorem tryDecode_of_65536_ids {ids : List SedimentreeId} (count : ids.length = 2 ^ 16) :
    tryDecode (removeSubscriptions ids).encode = .ok (removeSubscriptions []) := by
  refine tryDecode_eq_ok.mpr ⟨2, decodeEnvelope_eq_ok.mpr
    ⟨encodeCount 2 0, ids.flatMap SedimentreeId.asBytes, ⟨by decide, rfl⟩, ?_, ?_, rfl⟩⟩
  · rw [encode_eq_envelope]
    show envelope _ (encodeCount 2 ids.length ++ _) = _
    rw [count]
    rfl
  · rw [length_encode]
    simp only [encodedSize, payloadSize, envelopeHeaderSize, count]
    omega

end RoundTrip

attribute [local instance] eightBytes eightBytes_lawful shownKeys

/-- Subscriptions to 65536 documents are removed; the message is decoded as one that removes none. -/
theorem removeSubscriptions_of_65536_lost :
    tryDecode (removeSubscriptions (List.replicate (2 ^ 16) ⟨1⟩)).encode =
        .ok (removeSubscriptions []) ∧
      removeSubscriptions [] ≠ removeSubscriptions (List.replicate (2 ^ 16) ⟨1⟩) := by
  refine ⟨tryDecode_of_65536_ids List.length_replicate, fun same => ?_⟩
  have lengths := congrArg List.length (removeSubscriptions.inj same)
  rw [List.length_replicate] at lengths
  exact nomatch lengths

theorem roundTrip_iff_fits_pushed :
    tryDecode (looseCommit ⟨1⟩ sealedCommit ⟨[5, 6]⟩ ⟨3, [.numbered 1]⟩).encode =
      .ok (looseCommit ⟨1⟩ sealedCommit ⟨[5, 6]⟩ ⟨3, [.numbered 1]⟩) := by
  have encoded : Signed.Encoded LooseCommit.CountsFit sealedCommit :=
    Signed.sealPayload_encoded rfl (by decide)
  refine (roundTrip_iff_fits _).2.mpr ⟨?_, ?_, ?_, by decide +kernel⟩
  · simpa [commits] using encoded
  · simp [fragments]
  · simp [counts]

end SyncMessage

end Subduction
