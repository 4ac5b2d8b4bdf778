/-
**Messages of the keyhive protocol.**

The keyhive operations of two peers are reconciled by their hashes. A peer is named by its verifying
key and an optional suffix, which tells connections of one identity apart.

* `pairSetDigest` — the digest of a set of hashes, with **`pairSetDigest_eq_iff`**: two sets have the
  same digest exactly when that of their symmetric difference is zero.
-/

import Mathlib.Data.Prod.Lex
import Mathlib.Data.String.Basic
import Mathlib.Order.WithBot
import Subduction.Crypto.Signed
import Subduction.Lib.Parity

namespace Subduction

structure EventHash where
  bytes : BitVec (8 * 32)
deriving DecidableEq

theorem EventHash.toNat_injective : Function.Injective fun hash : EventHash => hash.bytes.toNat :=
  fun ⟨_⟩ ⟨_⟩ same => congrArg mk (BitVec.eq_of_toNat_eq same)

instance : LinearOrder EventHash :=
  LinearOrder.lift' (fun hash => hash.bytes.toNat) EventHash.toNat_injective

abbrev AgentHashMap := FinMap EventHash (List UInt8)

/-- **The name of a peer**: a verifying key, and a suffix for one of several connections. -/
structure KeyhivePeerId where
  verifyingKey : BitVec (8 * 32)
  suffix : Option String
deriving DecidableEq

/-- Names are ordered by the key, then by the suffix. -/
def KeyhivePeerId.rank (peer : KeyhivePeerId) : ℕ ×ₗ WithBot String :=
  toLex (peer.verifyingKey.toNat, peer.suffix)

theorem KeyhivePeerId.rank_injective : Function.Injective KeyhivePeerId.rank := by
  rintro ⟨key, suffix⟩ ⟨key', suffix'⟩ same
  obtain ⟨keys, suffixes⟩ := Prod.mk.inj (toLex_inj.mp same)
  obtain rfl : key = key' := BitVec.eq_of_toNat_eq keys
  obtain rfl : suffix = suffix' := suffixes
  rfl

instance : LinearOrder KeyhivePeerId :=
  LinearOrder.lift' KeyhivePeerId.rank KeyhivePeerId.rank_injective

/-- A valid verifying key. -/
structure Identifier [Ed25519] where
  key : VerifyingKey
  valid : Ed25519.isKey key.bytes = true
deriving DecidableEq

namespace KeyhivePeerId

/-- `KeyhivePeerId::same_identity`. -/
def sameIdentity (first second : KeyhivePeerId) : Prop := first.verifyingKey = second.verifyingKey

instance (first second : KeyhivePeerId) : Decidable (first.sameIdentity second) :=
  inferInstanceAs (Decidable (_ = _))

variable [Ed25519]

/-- `KeyhivePeerId::from_identifier`. -/
def fromIdentifier (id : Identifier) : KeyhivePeerId := ⟨id.key.bytes, none⟩

/-- `KeyhivePeerId::to_identifier`: fails if the bytes are no key. -/
def toIdentifier (peer : KeyhivePeerId) : Option Identifier :=
  if valid : Ed25519.isKey peer.verifyingKey = true then some ⟨⟨peer.verifyingKey⟩, valid⟩ else none

def original (peer : KeyhivePeerId) : Option Identifier :=
  if peer.suffix = none then peer.toIdentifier else none

theorem toIdentifier_eq_some {peer : KeyhivePeerId} {id : Identifier} :
    peer.toIdentifier = some id ↔ id.key.bytes = peer.verifyingKey := by
  unfold toIdentifier
  constructor
  · intro found
    split at found
    · rw [← Option.some.inj found]
    · cases found
  · intro same
    obtain ⟨⟨bytes⟩, valid⟩ := id
    obtain rfl : bytes = peer.verifyingKey := same
    rw [dif_pos valid]

theorem original_eq_some (id : Identifier) (peer : KeyhivePeerId) :
    peer.original = some id ↔ fromIdentifier id = peer := by
  obtain ⟨key, suffix⟩ := peer
  rw [original, fromIdentifier, mk.injEq]
  cases suffix with
  | none => simp [toIdentifier_eq_some]
  | some suffix => simp

end KeyhivePeerId

/-- **The messages of the keyhive protocol.** -/
inductive KeyhiveMessage where
  | syncRequest (senderId targetId : KeyhivePeerId) (found pending : List EventHash)
  | syncResponse (senderId targetId : KeyhivePeerId) (requested : List EventHash)
      (found : List (List UInt8)) (syncResponderTotal syncRequesterTotal : Nat)
  | syncOps (senderId targetId : KeyhivePeerId) (ops : List (List UInt8))
      (syncResponderTotal syncRequesterTotal : Nat)
  | requestContactCard (senderId targetId : KeyhivePeerId)
  | missingContactCard (senderId targetId : KeyhivePeerId)
  | syncCheck (senderId targetId : KeyhivePeerId) (senderTotal senderSyncpoint : Nat)
      (senderDigest : EventHash)
  | syncConfirmation (senderId targetId : KeyhivePeerId) (confirmerTotal : Nat)
deriving DecidableEq

/-- `Message::sender_id`. -/
def KeyhiveMessage.senderId : KeyhiveMessage → KeyhivePeerId
  | syncRequest senderId .. | syncResponse senderId .. | syncOps senderId ..
  | requestContactCard senderId _ | missingContactCard senderId _ | syncCheck senderId ..
  | syncConfirmation senderId .. => senderId

/-! ### The digest of a set -/

/-- `pair_set_digest`. -/
def pairSetDigest (hashes : List EventHash) : EventHash :=
  hashes.foldl (fun out hash => ⟨out.bytes ^^^ hash.bytes⟩) ⟨0⟩

/-- Hashes under exclusive or. -/
def hashParity : Parity EventHash where
  op first second := ⟨first.bytes ^^^ second.bytes⟩
  unit := ⟨0⟩
  comm _ _ := congrArg EventHash.mk (BitVec.xor_comm _ _)
  assoc _ _ _ := congrArg EventHash.mk (BitVec.xor_assoc _ _ _)
  unit_op _ := congrArg EventHash.mk BitVec.zero_xor
  self_op _ := congrArg EventHash.mk BitVec.xor_self

open scoped symmDiff in
theorem pairSetDigest_eq_iff {first second : Finset EventHash} :
    pairSetDigest (ascendingList first) = pairSetDigest (ascendingList second) ↔
      pairSetDigest (ascendingList (first ∆ second)) = ⟨0⟩ := by
  have isSum (set : Finset EventHash) : pairSetDigest (ascendingList set) = hashParity.sum id set :=
    hashParity.sum_eq_foldl id (coe_ascendingList set)
  rw [isSum, isSum, isSum]
  exact hashParity.sum_eq_iff id

end Subduction
