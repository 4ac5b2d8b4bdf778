/-
**What a passed sync check says.**

A check compares the totals of both sides with the syncpoints and the digests of the two sets. Totals
count pending operations, so what tells the sets apart is the digest. It is an exclusive or, which is
the same for two sets whenever that of their symmetric difference is zero.

* **`inSync_iff`** — when a check passes.
* **`passed_check_iff`**.
-/

import Subduction.Keyhive.Protocol

set_option linter.unusedSectionVars false

namespace Subduction

/-! ### A keyhive of one pair -/

/-- **A keyhive of one pair**: the operations that both agents reach, and the pending ones. -/
structure PairKeyhive [Ed25519] where
  us : Identifier
  them : Identifier
  pair : Finset EventHash
  pending : Finset EventHash

namespace PairKeyhive

variable [Ed25519]

/-- An event is serialized as its hash. -/
def decodeEvent (bytes : List UInt8) : Option EventHash :=
  if bytes.length = 32 then some ⟨ofBytesBE 32 bytes⟩ else none

theorem decodeEvent_bytesBE (hash : EventHash) : decodeEvent (bytesBE 32 hash.bytes) = some hash := by
  rw [decodeEvent, if_pos (length_bytesBE 32 _), ofBytesBE_bytesBE]

/-- Ingestion adds operations. -/
instance : KeyhiveCore PairKeyhive where
  agents keyhive := (FinMap.insert ∅ keyhive.us keyhive.pair).insert keyhive.them keyhive.pair
  pendingEventHashes keyhive := ascendingList keyhive.pending
  totalOps keyhive := keyhive.pair.card
  serializeEvent hash := bytesBE 32 hash.bytes
  serializeEvent_injective first second same := by
    have decoded := congrArg decodeEvent same
    simpa only [decodeEvent_bytesBE, Option.some.injEq] using decoded
  ingestUnsortedStaticEvents keyhive events :=
    (events.mapM decodeEvent).map fun hashes =>
      { keyhive with pair := keyhive.pair ∪ hashes.toFinset }
  receiveContactCard keyhive _ := some keyhive

end PairKeyhive

namespace KeyhiveProtocol

/-! ### When a check passes -/

section Check

open scoped symmDiff

variable {κ : Type} [Ed25519] [PublicAgent] [KeyhiveCore κ]

theorem inSync_iff {node : KeyhiveProtocol κ} {peer : KeyhivePeerId} {pair : Finset EventHash}
    (isPair : node.pairSet peer = .ok pair) {senderTotal senderSyncpoint localSyncpoint : Nat}
    {senderDigest : EventHash} :
    node.inSync peer senderTotal senderSyncpoint senderDigest localSyncpoint = .ok true ↔
      localSyncpoint = senderTotal ∧ senderSyncpoint = pair.card + node.getPendingHashes.length ∧
        senderDigest = pairSetDigest (ascendingList pair) := by
  unfold inSync computeTotalAndDigestForPeer
  rw [isPair]
  show Except.ok (decide _) = Except.ok true ↔ _
  rw [Except.ok.injEq, decide_eq_true_iff]

/-- **The digest separates the sets**: it is not zero on their symmetric difference. -/
def Separated (first second : Finset EventHash) : Prop :=
  pairSetDigest (ascendingList (first ∆ second)) = ⟨0⟩ → first = second

/-- **A passed check means equal sets**, whatever the syncpoints and pending counts, exactly when the
digest separates the set of the sender from that of the receiver. -/
theorem passed_check_iff (sender receiver : KeyhiveProtocol κ) (senderId receiverId : KeyhivePeerId)
    (senderSet receiverSet : Finset EventHash) (isSender : sender.pairSet receiverId = .ok senderSet)
    (isReceiver : receiver.pairSet senderId = .ok receiverSet) :
    (∀ total digest senderSyncpoint localSyncpoint,
      sender.computeTotalAndDigestForPeer receiverId = .ok (total, digest) →
      receiver.inSync senderId total senderSyncpoint digest localSyncpoint = .ok true →
        senderSet = receiverSet) ↔ Separated senderSet receiverSet := by
  have computed : sender.computeTotalAndDigestForPeer receiverId =
      .ok (senderSet.card + sender.getPendingHashes.length, pairSetDigest (ascendingList senderSet)) := by
    rw [computeTotalAndDigestForPeer, isSender]
    rfl
  constructor
  · intro sound cancels
    refine sound _ _ _ _ computed ((inSync_iff isReceiver).mpr ⟨rfl, rfl, ?_⟩)
    exact pairSetDigest_eq_iff.mpr cancels
  · intro separated total digest senderSyncpoint localSyncpoint isComputed passed
    obtain ⟨rfl, rfl⟩ := Prod.mk.inj (Except.ok.inj (computed.symm.trans isComputed))
    exact separated (pairSetDigest_eq_iff.mp ((inSync_iff isReceiver).mp passed).2.2)

end Check

/-- A node of a pair without a cache, for runs on fixed inputs. -/
def ofPair [Ed25519] (us them : Identifier) (pair pending : Finset EventHash) :
    KeyhiveProtocol PairKeyhive where
  peerId := .fromIdentifier us
  keyhive := ⟨us, them, pair, pending⟩
  peers := FinMap.insert ∅ (.fromIdentifier them) true
  syncpoints := ∅
  cache := .new
  outbox := []

/-- A key in the scheme where all byte strings are keys. -/
def shownId (key : BitVec (8 * 32)) : @Identifier shownKeys :=
  letI := shownKeys
  ⟨⟨key⟩, rfl⟩

/-- The public agent of runs on fixed inputs. -/
@[reducible] def publicZero : @PublicAgent shownKeys :=
  letI := shownKeys
  ⟨shownId 0⟩

/-- **A check passes on different sets**: the exclusive or of 1 and 2 is that of 4 and 7. -/
theorem check_passes_on_different_sets : letI := shownKeys
    letI := publicZero
    let sender := ofPair (shownId 1) (shownId 2) {⟨1⟩, ⟨2⟩} ∅
    let receiver := ofPair (shownId 2) (shownId 1) {⟨4⟩, ⟨7⟩} ∅
    sender.pairSet receiver.peerId = .ok {⟨1⟩, ⟨2⟩} ∧ receiver.pairSet sender.peerId = .ok {⟨4⟩, ⟨7⟩} ∧
      sender.computeTotalAndDigestForPeer receiver.peerId = .ok (2, ⟨3⟩) ∧
      receiver.inSync sender.peerId 2 2 ⟨3⟩ 2 = .ok true := by
  decide +kernel

theorem passed_check_iff_shown : letI := shownKeys
    letI := publicZero
    let sender := ofPair (shownId 1) (shownId 2) {⟨1⟩, ⟨2⟩} {⟨5⟩}
    let receiver := ofPair (shownId 2) (shownId 1) {⟨1⟩, ⟨4⟩} ∅
    ∀ total digest senderSyncpoint localSyncpoint,
      sender.computeTotalAndDigestForPeer receiver.peerId = .ok (total, digest) →
      receiver.inSync sender.peerId total senderSyncpoint digest localSyncpoint = .ok true →
        ({⟨1⟩, ⟨2⟩} : Finset EventHash) = {⟨1⟩, ⟨4⟩} := by
  let _ := shownKeys
  let _ := publicZero
  refine (passed_check_iff (ofPair (shownId 1) (shownId 2) {⟨1⟩, ⟨2⟩} {⟨5⟩})
    (ofPair (shownId 2) (shownId 1) {⟨1⟩, ⟨4⟩} ∅) _ _ _ _ ?_ ?_).mpr ?_
  · decide +kernel
  · decide +kernel
  · unfold Separated
    decide +kernel

end KeyhiveProtocol

end Subduction
