/-
**The initiator side of the handshake.**

`initiate` sends its signed challenge and waits. A response to it ends the handshake; a challenge in
its place is a *simultaneous open*, in which the side with the greater bytes waits for the response
of the other one before it answers.

* **`Initiator.recv_received`** — the step is one of the cases.
-/

import Subduction.Handshake.Respond

set_option linter.unusedSectionVars false

namespace Subduction

/-- The parameters of `initiate`. -/
structure Initiator where
  signer : Signer
  audience : Audience
  now : TimestampSeconds
  nonce : Nonce

/-- **Where a call of `initiate` waits**, or how it ended. -/
inductive InitiateState where
  | awaitFirst
  | awaitAsWinner (theirs : VerifiedChallenge)
  | awaitAsLoser (theirs : VerifiedChallenge)
  | finished (result : Except AuthenticateError PeerId)
deriving DecidableEq

namespace Initiator

def challenge (initiator : Initiator) : Challenge :=
  ⟨initiator.audience, initiator.now, initiator.nonce⟩

def signedChallenge (initiator : Initiator) : Signed Challenge :=
  .sealPayload initiator.signer initiator.challenge

def key (initiator : Initiator) : VerifyingKey := initiator.signer.verifyingKey

variable [Ed25519]

/-- The verification of their challenge: for the own identity, then for the discovery audience where
the call was made with one. -/
def verifyTheirs (initiator : Initiator) (theirSignedChallenge : Signed Challenge) :
    Except HandshakeError VerifiedChallenge :=
  match verifyChallenge theirSignedChallenge (.known initiator.key.peerId) initiator.now
      simultaneousOpenMaxDrift with
  | .error (.challengeValidation .invalidAudience) =>
    match initiator.audience with
    | .discover id =>
      verifyChallenge theirSignedChallenge (.discover id) initiator.now simultaneousOpenMaxDrift
    | .known _ => .error (.challengeValidation .invalidAudience)
  | result => result

variable [Blake3]

/-- `recv_verified_response`. -/
def recvVerifiedResponse (initiator : Initiator) (received : Option (List UInt8)) :
    Except AuthenticateError PeerId :=
  match recvHandshakeMessage received with
  | .error error => .error error
  | .ok (.signedResponse signedResponse) =>
    match verifyResponse signedResponse initiator.challenge with
    | .error error => .error (.handshake error)
    | .ok verified => .ok verified.serverId
  | .ok (.rejection reply) => .error (.rejected reply.reason reply.serverTimestamp)
  | .ok (.signedChallenge _) => .error .unexpectedMessage

def answer (initiator : Initiator) (theirs : VerifiedChallenge) : HandshakeMessage :=
  .signedResponse (createResponse initiator.signer theirs.challenge initiator.now)

/-- The first message is their challenge. -/
def simultaneousOpen (initiator : Initiator) (theirSignedChallenge : Signed Challenge) (sends : Bool) :
    InitiateState × List HandshakeMessage :=
  if initiator.signedChallenge.bytes = theirSignedChallenge.bytes then
    (.finished (.error .reflectedChallenge), [])
  else
    match initiator.verifyTheirs theirSignedChallenge with
    | .error error => (.finished (.error (.handshake error)), [])
    | .ok theirs =>
      if theirs.clientId = initiator.key.peerId then (.finished (.error .reflectionAttack), [])
      else if theirSignedChallenge.bytes < initiator.signedChallenge.bytes then
        (.awaitAsWinner theirs, [])
      else
        (if sends then .awaitAsLoser theirs else .finished (.error .transport),
          [initiator.answer theirs])

/-- **What `initiate` does with the next message**: the state after it, and what it hands to the
transport. -/
def recv (initiator : Initiator) (state : InitiateState) (received : Option (List UInt8))
    (sends : Bool) : InitiateState × List HandshakeMessage :=
  match state with
  | .awaitFirst =>
    match recvHandshakeMessage received with
    | .error error => (.finished (.error error), [])
    | .ok (.signedResponse signedResponse) =>
      match verifyResponse signedResponse initiator.challenge with
      | .error error => (.finished (.error (.handshake error)), [])
      | .ok verified => (.finished (.ok verified.serverId), [])
    | .ok (.rejection reply) =>
      (.finished (.error (.rejected reply.reason reply.serverTimestamp)), [])
    | .ok (.signedChallenge theirSignedChallenge) =>
      initiator.simultaneousOpen theirSignedChallenge sends
  | .awaitAsWinner theirs =>
    match initiator.recvVerifiedResponse received with
    | .error error => (.finished (.error error), [])
    | .ok peerId =>
      if peerId ≠ theirs.clientId then
        (.finished (.error .simultaneousOpenPeerMismatch), [])
      else
        (.finished (if sends then .ok peerId else .error .transport), [initiator.answer theirs])
  | .awaitAsLoser theirs =>
    match initiator.recvVerifiedResponse received with
    | .error error => (.finished (.error error), [])
    | .ok peerId =>
      if peerId ≠ theirs.clientId then
        (.finished (.error .simultaneousOpenPeerMismatch), [])
      else (.finished (.ok peerId), [])
  | .finished result => (.finished result, [])

end Initiator

/-! ### The cases of the step -/

section Cases

variable [Ed25519] [Blake3]

/-- The bytes decode to a response to the challenge, signed by the peer. -/
def AnsweredBy (challenge : Challenge) (received : Option (List UInt8)) (peer : PeerId) : Prop :=
  ∃ signedResponse response, recvHandshakeMessage received = .ok (.signedResponse signedResponse) ∧
    verifyResponse signedResponse challenge = .ok ⟨peer, response⟩

/-- The bytes decode to a challenge that verifies. -/
def ChallengedBy (received : Option (List UInt8)) (theirs : VerifiedChallenge) : Prop :=
  ∃ signedChallenge audience now maxDrift,
    recvHandshakeMessage received = .ok (.signedChallenge signedChallenge) ∧
      verifyChallenge signedChallenge audience now maxDrift = .ok theirs

/-- **The cases of a step of `initiate`** with a transport that sends. -/
inductive Received (initiator : Initiator) (received : Option (List UInt8)) :
    InitiateState → InitiateState → List HandshakeMessage → Prop
  | failed {state error} : Received initiator received state (.finished (.error error)) []
  | ended {result} : Received initiator received (.finished result) (.finished result) []
  | answered {peer} : AnsweredBy initiator.challenge received peer →
      Received initiator received .awaitFirst (.finished (.ok peer)) []
  | won {theirs} : ChallengedBy received theirs →
      Received initiator received .awaitFirst (.awaitAsWinner theirs) []
  | lost {theirs} : ChallengedBy received theirs →
      Received initiator received .awaitFirst (.awaitAsLoser theirs) [initiator.answer theirs]
  | winner {theirs} : AnsweredBy initiator.challenge received theirs.clientId →
      Received initiator received (.awaitAsWinner theirs) (.finished (.ok theirs.clientId))
        [initiator.answer theirs]
  | loser {theirs} : AnsweredBy initiator.challenge received theirs.clientId →
      Received initiator received (.awaitAsLoser theirs) (.finished (.ok theirs.clientId)) []

theorem Initiator.verifyTheirs_eq_ok {initiator : Initiator} {signedChallenge : Signed Challenge}
    {theirs : VerifiedChallenge} (verifies : initiator.verifyTheirs signedChallenge = .ok theirs) :
    ∃ audience now maxDrift, verifyChallenge signedChallenge audience now maxDrift = .ok theirs := by
  unfold Initiator.verifyTheirs at verifies
  split at verifies
  · split at verifies
    · exact ⟨_, _, _, verifies⟩
    · exact nomatch verifies
  · exact ⟨_, _, _, verifies⟩

theorem Initiator.recvVerifiedResponse_eq_ok {initiator : Initiator} {received : Option (List UInt8)}
    {peer : PeerId} (verifies : initiator.recvVerifiedResponse received = .ok peer) :
    AnsweredBy initiator.challenge received peer := by
  unfold Initiator.recvVerifiedResponse at verifies
  split at verifies
  · exact nomatch verifies
  · rename_i signedResponse decoded
    split at verifies
    · exact nomatch verifies
    · rename_i verified isVerified
      obtain rfl := Except.ok.inj verifies
      exact ⟨signedResponse, verified.response, decoded, isVerified⟩
  · exact nomatch verifies
  · exact nomatch verifies

theorem Initiator.simultaneousOpen_received (initiator : Initiator)
    {received : Option (List UInt8)} {signedChallenge : Signed Challenge}
    (decoded : recvHandshakeMessage received = .ok (.signedChallenge signedChallenge)) :
    Received initiator received .awaitFirst (initiator.simultaneousOpen signedChallenge true).1
      (initiator.simultaneousOpen signedChallenge true).2 := by
  unfold Initiator.simultaneousOpen
  split
  · exact .failed
  · split
    · exact .failed
    · rename_i theirs verifies
      obtain ⟨audience, now, maxDrift, isVerified⟩ := verifyTheirs_eq_ok verifies
      have challenged : ChallengedBy received theirs :=
        ⟨signedChallenge, audience, now, maxDrift, decoded, isVerified⟩
      split
      · exact .failed
      · split
        · exact .won challenged
        · exact .lost challenged

theorem Initiator.recv_received (initiator : Initiator) (state : InitiateState)
    (received : Option (List UInt8)) :
    Received initiator received state (initiator.recv state received true).1
      (initiator.recv state received true).2 := by
  cases state with
  | awaitFirst =>
    unfold Initiator.recv
    cases decoded : recvHandshakeMessage received with
    | error error => exact .failed
    | ok message =>
      cases message with
      | signedResponse signedResponse =>
        cases verifies : verifyResponse signedResponse initiator.challenge with
        | error error =>
          simp only [verifies]
          exact .failed
        | ok verified =>
          simp only [verifies]
          exact .answered ⟨signedResponse, verified.response, decoded, verifies⟩
      | rejection reply => exact .failed
      | signedChallenge signedChallenge => exact initiator.simultaneousOpen_received decoded
  | awaitAsWinner theirs =>
    unfold Initiator.recv
    cases verifies : initiator.recvVerifiedResponse received with
    | error error => exact .failed
    | ok peer =>
      dsimp only
      split
      · exact .failed
      · rename_i same
        obtain rfl := not_not.mp same
        exact .winner (recvVerifiedResponse_eq_ok verifies)
  | awaitAsLoser theirs =>
    unfold Initiator.recv
    cases verifies : initiator.recvVerifiedResponse received with
    | error error => exact .failed
    | ok peer =>
      dsimp only
      split
      · exact .failed
      · rename_i same
        obtain rfl := not_not.mp same
        exact .loser (recvVerifiedResponse_eq_ok verifies)
  | finished result => exact .ended

end Cases

end Subduction
