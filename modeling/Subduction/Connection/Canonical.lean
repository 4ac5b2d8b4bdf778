/-
**Which accepted messages are canonical.**

The decoder compares the total size in the envelope with the size of the buffer, but does not ask
where its reading of the payload ended, and it puts the fingerprints of a request into sets without
asking for their order. An accepted byte string is the encoding of its message exactly when nothing
stands behind the fields of the payload and the fingerprints of a request are strictly ascending.

Main result: `SyncMessage.canonical_iff`.
-/

import Subduction.Connection.Codec

set_option linter.unusedSectionVars false

namespace Subduction

open List

namespace SyncMessage

/-! ### The two conditions -/

/-- The fields of the payload end where the payload ends. -/
def Exhausted [Bijou64Codec] [Ed25519] (bytes : List UInt8) : Prop :=
  (decodeEnvelope bytes).map Prod.snd = .ok (bytes.length - envelopeHeaderSize)

/-- `count` fingerprints from the offset on. -/
def fingerprintsAt (payload : List UInt8) (offset count : Nat) : List Fingerprint :=
  (List.range count).map fun i =>
    ⟨UInt64.ofBitVec (ofBytesBE 8 ((payload.drop (offset + 8 * i)).take 8))⟩

def countAt (payload : List UInt8) (offset : Nat) : Nat :=
  (ofBytesBE 2 ((payload.drop offset).take 2)).toNat

/-- In a request, the fingerprints of commits and those of fragments are strictly ascending. -/
def AscendingFingerprints (bytes : List UInt8) : Prop :=
  let payload := bytes.drop envelopeHeaderSize
  let commitCount := countAt payload 89
  let fragmentCount := countAt payload 91
  bytes[8]? = some 0x04 → (fingerprintsAt payload 93 commitCount).Pairwise (· < ·) ∧
      (fingerprintsAt payload (93 + 8 * commitCount) fragmentCount).Pairwise (· < ·)

theorem fingerprintsAt_eq {payload : List UInt8} {fps : List Fingerprint} {offset : Nat}
    (stands : fps.flatMap Fingerprint.asBytes <+: payload.drop offset) :
    fingerprintsAt payload offset fps.length = fps := by
  induction fps generalizing offset with
  | nil => rfl
  | cons fp fps ih =>
    rw [flatMap_cons, append_isPrefix_drop, Fingerprint.length_asBytes] at stands
    obtain ⟨_, read⟩ := (bytesBE_isPrefix_drop (by decide)).mp stands.1
    have rest := ih stands.2
    unfold fingerprintsAt at rest ⊢
    rw [length_cons, range_succ_eq_map, map_cons, map_map, Nat.mul_zero, Nat.add_zero, read]
    refine congrArg (fp :: ·) (Eq.trans (map_congr_left fun i _ => ?_) rest)
    show Fingerprint.mk (UInt64.ofBitVec (ofBytesBE 8 ((payload.drop (offset + 8 * (i + 1))).take 8))) = _
    rw [show offset + 8 * (i + 1) = offset + 8 + 8 * i by omega]

theorem countAt_eq {payload : List UInt8} {count offset : Nat} (small : count < 2 ^ 16)
    (stands : encodeCount 2 count <+: payload.drop offset) : countAt payload offset = count := by
  obtain ⟨_, read⟩ := (bytesBE_isPrefix_drop two_pos).mp stands
  rw [countAt, read, BitVec.toNat_ofNat, Nat.mod_eq_of_lt small]

/-! ### Requests -/

/-- The part of a request before the counts. -/
def requestHead (request : BatchSyncRequest) : List UInt8 :=
  request.id.asBytes ++ request.reqId.requestor.asBytes ++ encodeU64 request.reqId.nonce
    ++ [request.subscribe.toUInt8]
    ++ encodeU64 request.fingerprintSummary.seed.key0 ++ encodeU64 request.fingerprintSummary.seed.key1

theorem length_requestHead (request : BatchSyncRequest) : (requestHead request).length = 89 := by
  simp [requestHead]

theorem requestForm_eq (request : BatchSyncRequest) (commitFps fragmentFps : List Fingerprint) :
    requestForm request commitFps fragmentFps = requestHead request ++ (encodeCount 2 commitFps.length
      ++ (encodeCount 2 fragmentFps.length ++ (commitFps.flatMap Fingerprint.asBytes
        ++ fragmentFps.flatMap Fingerprint.asBytes))) := by
  simp only [requestForm, requestHead, append_assoc]

theorem length_flatMap_fingerprints (fps : List Fingerprint) :
    (fps.flatMap Fingerprint.asBytes).length = fps.length * 8 := by
  simp

theorem encodeCount_inj {first second : Nat} (small : first < 2 ^ 16) (small' : second < 2 ^ 16)
    (same : encodeCount 2 first = encodeCount 2 second) : first = second := by
  have numbers := congrArg BitVec.toNat (bytesBE_injective 2 same)
  rwa [BitVec.toNat_ofNat, BitVec.toNat_ofNat, Nat.mod_eq_of_lt small, Nat.mod_eq_of_lt small'] at numbers

theorem flatMap_fingerprints_inj {first second : List Fingerprint}
    (same : first.flatMap Fingerprint.asBytes = second.flatMap Fingerprint.asBytes) : first = second := by
  refine @flatMap_injOn_of_prefixFree _ _ (fun _ => True) _ ?_ ?_ _ _ (fun _ _ => trivial)
    (fun _ _ => trivial) same
  · intro buf one two _ _ oneAt twoAt
    have bytes : one.asBytes = two.asBytes := by
      rw [prefix_iff_eq_take.mp oneAt, prefix_iff_eq_take.mp twoAt, Fingerprint.length_asBytes,
        Fingerprint.length_asBytes]
    obtain ⟨one⟩ := one
    obtain ⟨two⟩ := two
    exact congrArg Fingerprint.mk (UInt64.toBitVec_inj.mp (bytesBE_injective 8 bytes))
  · intro fp _ empty
    exact absurd (congrArg List.length empty) (by simp)

/-- **Two ways to write a request**, the second with something behind it, are one exactly when the
lists are the same and nothing is behind it. -/
theorem requestForm_eq_append_iff {request : BatchSyncRequest}
    {commitFps fragmentFps commitFps' fragmentFps' : List Fingerprint} {rest : List UInt8}
    (lists : Lists request commitFps fragmentFps) (lists' : Lists request commitFps' fragmentFps') :
    requestForm request commitFps fragmentFps = requestForm request commitFps' fragmentFps' ++ rest ↔
      commitFps = commitFps' ∧ fragmentFps = fragmentFps' ∧ rest = [] := by
  constructor
  · intro same
    rw [requestForm_eq, requestForm_eq, append_assoc, append_assoc, append_assoc] at same
    have counts := append_cancel_left same
    obtain ⟨commitCount, counts⟩ := append_inj counts (by simp)
    obtain ⟨fragmentCount, fields⟩ := append_inj counts (by simp)
    have commitCount := encodeCount_inj lists.commitCount lists'.commitCount commitCount
    have fragmentCount := encodeCount_inj lists.fragmentCount lists'.fragmentCount fragmentCount
    rw [append_assoc] at fields
    obtain ⟨commits, fields⟩ := append_inj fields (by
      rw [length_flatMap_fingerprints, length_flatMap_fingerprints, commitCount])
    have sizes := congrArg List.length fields
    rw [length_append, length_flatMap_fingerprints, length_flatMap_fingerprints, fragmentCount]
      at sizes
    obtain rfl : rest = [] := length_eq_zero_iff.mp (by omega)
    rw [append_nil] at fields
    exact ⟨flatMap_fingerprints_inj commits, flatMap_fingerprints_inj fields, rfl⟩
  · rintro ⟨rfl, rfl, rfl⟩
    exact (append_nil _).symm

/-! ### Canonical byte strings -/

section Canonical

variable [Bijou64Codec] [LawfulBijou64] [Ed25519]

theorem envelope_inj {byte : UInt8} {first second : List UInt8}
    (same : envelope byte first = envelope byte second) : first = second := by
  rw [← drop_envelope byte first, same, drop_envelope]

theorem envelope_tag (byte : UInt8) (payload : List UInt8) : (envelope byte payload)[8]? = some byte := by
  have framed : envelope byte payload = envelope byte ((envelope byte payload).drop envelopeHeaderSize) := by
    rw [drop_envelope]
  have parts := eq_envelope_iff.mp ⟨framed, by rw [length_envelope]; omega⟩
  have head := singleton_prefix_iff_head?_eq_some.mp parts.2.2
  rwa [List.head?_drop] at head

theorem exhausted_iff {bytes : List UInt8} {message : SyncMessage} {stop : Nat}
    (decoded : decodeEnvelope bytes = .ok (message, stop)) :
    Exhausted bytes ↔ stop = bytes.length - envelopeHeaderSize := by
  unfold Exhausted
  rw [decoded]
  simp [Except.map]

theorem ascendingFingerprints_iff {request : BatchSyncRequest} {commitFps fragmentFps : List Fingerprint}
    {rest : List UInt8} (lists : Lists request commitFps fragmentFps) :
    AscendingFingerprints (envelope 0x04 (requestForm request commitFps fragmentFps ++ rest)) ↔
      commitFps.Pairwise (· < ·) ∧ fragmentFps.Pairwise (· < ·) := by
  generalize whole : requestForm request commitFps fragmentFps ++ rest = payload
  have parts : requestForm request commitFps fragmentFps <+: payload.drop 0 :=
    whole ▸ prefix_append _ _
  simp only [requestForm_eq, append_isPrefix_drop, length_requestHead, length_encodeCount,
    length_flatMap_fingerprints] at parts
  obtain ⟨_, commitCountAt, fragmentCountAt, commitsAt, fragmentsAt⟩ := parts
  have commitCount : countAt payload 89 = _ := countAt_eq lists.commitCount commitCountAt
  have fragmentCount : countAt payload 91 = _ := countAt_eq lists.fragmentCount fragmentCountAt
  have commits : fingerprintsAt payload 93 _ = _ := fingerprintsAt_eq commitsAt
  have fragments : fingerprintsAt payload (93 + _) _ = _ := fingerprintsAt_eq fragmentsAt
  unfold AscendingFingerprints
  simp only [drop_envelope, envelope_tag, true_implies]
  rw [commitCount, fragmentCount, commits, Nat.mul_comm 8, fragments]

/-- **Canonical decoding**: an accepted byte string is the encoding of the message exactly when
nothing stands behind the fields of its payload and the fingerprints of a request ascend. -/
theorem canonical_iff {bytes : List UInt8} {message : SyncMessage}
    (accepted : tryDecode bytes = .ok message) :
    message.encode = bytes ↔ Exhausted bytes ∧ AscendingFingerprints bytes := by
  obtain ⟨stop, decoded⟩ := tryDecode_eq_ok.mp accepted
  obtain ⟨form, rest, shaped, rfl, _, rfl⟩ := decodeEnvelope_eq_ok.mp decoded
  have ended : Exhausted (envelope message.tag (form ++ rest)) ↔ rest = [] := by
    rw [exhausted_iff decoded, length_envelope, List.length_append, ← List.length_eq_zero_iff]
    omega
  have encoded : message.encode = envelope message.tag (form ++ rest) ↔
      message.encodePayload = form ++ rest := by
    rw [encode_eq_envelope]
    exact ⟨envelope_inj, fun same => by rw [same]⟩
  rw [ended, encoded]
  -- only requests have more than one form
  have plain (single : form = message.encodePayload) (other : message.tag ≠ 0x04) :
      message.encodePayload = form ++ rest ↔
        rest = [] ∧ AscendingFingerprints (envelope message.tag (form ++ rest)) := by
    have noFingerprints : AscendingFingerprints (envelope message.tag (form ++ rest)) := by
      intro isRequest
      rw [envelope_tag] at isRequest
      exact absurd (Option.some.inj isRequest) other
    rw [← single, List.self_eq_append_right]
    exact ⟨fun empty => ⟨empty, noFingerprints⟩, fun both => both.1⟩
  cases message with
  | looseCommit id signed blob senderHeads => exact plain shaped.2 (by simp [tag])
  | fragment id signed blob senderHeads => exact plain shaped.2 (by simp [tag])
  | batchSyncResponse response => exact plain shaped.2 (by simp [tag])
  | removeSubscriptions ids => exact plain shaped.2 (by simp [tag])
  | dataRequestRejected id => exact plain shaped (by simp [tag])
  | headsUpdate id heads => exact plain shaped.2 (by simp [tag])
  | batchSyncRequest request =>
    obtain ⟨commitFps, fragmentFps, lists, rfl⟩ := shaped
    have small : Lists request (ascendingList request.fingerprintSummary.commitFingerprints)
        (ascendingList request.fingerprintSummary.fragmentFingerprints) := by
      refine ⟨(eq_ascendingList_iff.mp rfl).2, (eq_ascendingList_iff.mp rfl).2, ?_, ?_⟩
      · rw [length_ascendingList, ← lists.commits]
        exact (List.toFinset_card_le _).trans_lt lists.commitCount
      · rw [length_ascendingList, ← lists.fragments]
        exact (List.toFinset_card_le _).trans_lt lists.fragmentCount
    have payload : (batchSyncRequest request).encodePayload = encodeBatchSyncRequest request := rfl
    have isRequest : (batchSyncRequest request).tag = 0x04 := rfl
    rw [isRequest, ascendingFingerprints_iff lists, payload, encodeBatchSyncRequest_eq,
      requestForm_eq_append_iff small lists, eq_comm, eq_ascendingList_iff, and_iff_left lists.commits,
      @eq_comm _ (ascendingList _), eq_ascendingList_iff, and_iff_left lists.fragments]
    constructor
    · rintro ⟨commits, fragments, empty⟩
      exact ⟨empty, commits, fragments⟩
    · rintro ⟨empty, commits, fragments⟩
      exact ⟨commits, fragments, empty⟩

end Canonical

def requestOfTwo : BatchSyncRequest :=
  ⟨⟨1⟩, ⟨⟨2⟩, 3⟩, ⟨⟨4, 5⟩, {⟨1⟩, ⟨2⟩}, ∅⟩, true⟩

theorem tryDecode_requestOfTwo [Bijou64Codec] [LawfulBijou64] [Ed25519] {commitFps : List Fingerprint}
    (order : commitFps = [⟨1⟩, ⟨2⟩] ∨ commitFps = [⟨2⟩, ⟨1⟩]) :
    tryDecode (envelope 0x04 (requestForm requestOfTwo commitFps [])) =
      .ok (batchSyncRequest requestOfTwo) := by
  have lists : Lists requestOfTwo commitFps [] := by
    rcases order with rfl | rfl
    · exact ⟨by decide, rfl, by decide, by decide⟩
    · exact ⟨by decide, rfl, by decide, by decide⟩
  refine tryDecode_eq_ok.mpr ⟨_, decodeEnvelope_eq_ok.mpr ⟨_, [], ⟨_, _, lists, rfl⟩, ?_, ?_, rfl⟩⟩
  · rw [append_nil]
    rfl
  · have count : commitFps.length = 2 := by
      rcases order with rfl | rfl <;> rfl
    rw [length_envelope, requestForm_eq]
    simp [length_requestHead, count, envelopeHeaderSize]

attribute [local instance] eightBytes eightBytes_lawful shownKeys

/-- **Accepted, but not canonical**: a byte behind the payload of a rejection, and a request whose
fingerprints stand in descending order. -/
theorem noncanonical_accepted :
    (tryDecode (envelope 0x07 (SedimentreeId.asBytes ⟨1⟩ ++ [0])) = .ok (dataRequestRejected ⟨1⟩) ∧
      (dataRequestRejected ⟨1⟩).encode ≠ envelope 0x07 (SedimentreeId.asBytes ⟨1⟩ ++ [0])) ∧
    tryDecode (envelope 0x04 (requestForm requestOfTwo [⟨2⟩, ⟨1⟩] [])) =
        .ok (batchSyncRequest requestOfTwo) ∧
      (batchSyncRequest requestOfTwo).encode ≠
        envelope 0x04 (requestForm requestOfTwo [⟨2⟩, ⟨1⟩] []) := by
  refine ⟨⟨?_, by decide +kernel⟩, tryDecode_requestOfTwo (.inr rfl), by decide +kernel⟩
  exact tryDecode_eq_ok.mpr ⟨32, decodeEnvelope_eq_ok.mpr
    ⟨SedimentreeId.asBytes ⟨1⟩, [0], rfl, rfl, by decide +kernel, rfl⟩⟩

theorem canonical_iff_requestOfTwo :
    (batchSyncRequest requestOfTwo).encode = envelope 0x04 (requestForm requestOfTwo [⟨1⟩, ⟨2⟩] []) ↔
      Exhausted (envelope 0x04 (requestForm requestOfTwo [⟨1⟩, ⟨2⟩] [])) ∧
        AscendingFingerprints (envelope 0x04 (requestForm requestOfTwo [⟨1⟩, ⟨2⟩] [])) := by
  exact canonical_iff (tryDecode_requestOfTwo (.inl rfl))

end SyncMessage

end Subduction
