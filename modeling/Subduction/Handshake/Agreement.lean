/-
**What an initiator knows about its peer when the handshake is over.**

Any number of honest peers run `initiate` and `respond` over a network that belongs to an adversary:
it delivers any bytes to any call, in any order, and owns keys of its own. Unforgeability is the only
restriction: bytes with a signature that verifies under an honest key carry what that key signed.

Main result: `handshake_agreement`.
-/

import Subduction.Handshake.Initiate

set_option linter.unusedSectionVars false

namespace Subduction

open Relation Signed List

/-! ### The world -/

/-- **A call of `initiate`**: its parameters, where it is, and the challenge that it has answered. -/
structure Session where
  initiator : Initiator
  state : InitiateState
  answered : Option VerifiedChallenge

/-- **The honest peers**: what they signed, their calls of `initiate`, the calls of `respond` that
returned a peer, and their nonce caches. -/
structure World where
  signatures : List (VerifyingKey × List UInt8)
  sessions : List Session
  responded : List (VerifyingKey × VerifiedChallenge)
  caches : VerifyingKey → NonceCache

def World.start : World := ⟨[], [], [], fun _ => NonceCache.default⟩

/-- The signature of a message. -/
def HandshakeMessage.signatures : HandshakeMessage → List (VerifyingKey × List UInt8)
  | signedChallenge signed => [(signed.issuer, signed.payloadBytes)]
  | signedResponse signed => [(signed.issuer, signed.payloadBytes)]
  | rejection _ => []

theorem signedChallenge_signatures (initiator : Initiator) :
    (HandshakeMessage.signedChallenge initiator.signedChallenge).signatures =
      [(initiator.key, Signed.toSign initiator.key initiator.challenge)] := by
  simp [HandshakeMessage.signatures, Initiator.signedChallenge, Initiator.key]

theorem createResponse_signatures [Blake3] (signer : Signer) (challenge : Challenge)
    (now : TimestampSeconds) :
    (HandshakeMessage.signedResponse (createResponse signer challenge now)).signatures =
      [(signer.verifyingKey, Signed.toSign signer.verifyingKey (Response.forChallenge challenge now))] := by
  simp [HandshakeMessage.signatures, createResponse]

/-- Their challenge, in the states of a simultaneous open. -/
def InitiateState.theirs? : InitiateState → Option VerifiedChallenge
  | awaitAsWinner theirs => some theirs
  | awaitAsLoser theirs => some theirs
  | _ => none

section Steps

variable [Ed25519] [Blake3]

def Session.recv (session : Session) (received : Option (List UInt8)) : Session :=
  let (next, sent) := session.initiator.recv session.state received true
  -- the one message that is sent is the answer, before the wait of the loser or at the winner's end
  ⟨session.initiator, next,
    if sent.isEmpty then session.answered else next.theirs?.or session.state.theirs?⟩

theorem Session.recv_initiator (session : Session) (received : Option (List UInt8)) :
    (session.recv received).initiator = session.initiator := rfl

/-- A peer calls `initiate`. -/
def World.initiate (world : World) (initiator : Initiator) : World :=
  { world with
    signatures := (HandshakeMessage.signedChallenge initiator.signedChallenge).signatures
      ++ world.signatures
    sessions := world.sessions ++ [⟨initiator, .awaitFirst, none⟩] }

/-- A call of `initiate` receives. -/
def World.receive (world : World) (index : Nat) (session : Session) (received : Option (List UInt8)) :
    World :=
  { world with
    signatures := (session.initiator.recv session.state received true).2.flatMap
      HandshakeMessage.signatures ++ world.signatures
    sessions := world.sessions.set index (session.recv received) }

/-- The challenge that a call of `respond` returned a peer for. -/
def Responder.accepted? (responder : Responder) (cache : NonceCache) (received : Option (List UInt8)) :
    Option VerifiedChallenge :=
  match (responder.respond cache received true).2.2, recvHandshakeMessage received with
  | .ok _, .ok (.signedChallenge signedChallenge) => (responder.verify signedChallenge).toOption
  | _, _ => none

/-- A peer calls `respond`, on its own nonce cache. -/
def World.respond (world : World) (responder : Responder) (received : Option (List UInt8)) : World :=
  let key := responder.signer.verifyingKey
  let result := responder.respond (world.caches key) received true
  { world with
    signatures := result.2.1.flatMap HandshakeMessage.signatures ++ world.signatures
    responded := ((responder.accepted? (world.caches key) received).map (key, ·)).toList
      ++ world.responded
    caches := Function.update world.caches key result.1 }

variable (honest : VerifyingKey → Prop)

/-- **Unforgeability**: a signature that verifies under an honest key is on something it signed. -/
def World.Unforged (world : World) {α : Type} (signed : Signed α) : Prop :=
  honest signed.issuer →
    Ed25519.verifyStrict signed.issuer signed.payloadBytes signed.signature = true →
      (signed.issuer, signed.payloadBytes) ∈ world.signatures

/-- The adversary can deliver the bytes. -/
def World.Deliverable (world : World) (received : Option (List UInt8)) : Prop :=
  (∀ signed, recvHandshakeMessage received = .ok (.signedChallenge signed) →
    world.Unforged honest signed) ∧
  ∀ signed, recvHandshakeMessage received = .ok (.signedResponse signed) → world.Unforged honest signed

/-- **One step.** Honest peers also sign other things, under other schemas. -/
inductive Step : World → World → Prop
  | initiate {world initiator} : honest initiator.key → Step world (world.initiate initiator)
  | receive {world index session received} : world.sessions[index]? = some session →
      world.Deliverable honest received → Step world (world.receive index session received)
  | respond {world responder received} : honest responder.signer.verifyingKey →
      world.Deliverable honest received → Step world (world.respond responder received)
  | sign {world key bytes} : honest key → bytes.take 4 ≠ handshakeSchema →
      Step world { world with signatures := (key, bytes) :: world.signatures }

def Reachable (world : World) : Prop := ReflTransGen (Step honest) World.start world

end Steps

/-! ### The invariant -/

/-- **The session has answered their challenge**: as the loser that waits for the last message, or it
is over, and if it ended with a peer, with the one who sent the challenge. -/
def Session.Answered (session : Session) (theirs : VerifiedChallenge) : Prop :=
  session.answered = some theirs ∧ (session.state = .awaitAsLoser theirs ∨
    ∃ result, session.state = .finished result ∧ ∀ peer, result = .ok peer → peer = theirs.clientId)

/-- **The key has accepted the challenge**, in `respond` or in its own `initiate`. -/
def World.Accepted (world : World) (key : VerifyingKey) (theirs : VerifiedChallenge) : Prop :=
  (key, theirs) ∈ world.responded ∨
    ∃ session ∈ world.sessions, session.initiator.key = key ∧ session.Answered theirs

section Invariant

variable [Ed25519] [Blake3] (honest : VerifyingKey → Prop)

/-- The challenge was signed by its client; an honest one sent it in a call of `initiate`. -/
def World.Sent (world : World) (theirs : VerifiedChallenge) : Prop :=
  ∃ key, theirs.clientId = key.peerId ∧ (honest key → ∃ session ∈ world.sessions,
    session.initiator.key = key ∧ session.initiator.challenge = theirs.challenge)

/-- **Why an honest key signed something.** -/
inductive World.Explained (world : World) : VerifyingKey × List UInt8 → Prop
  | challenge {session} : session ∈ world.sessions → Explained world
      (session.initiator.key, Signed.toSign session.initiator.key session.initiator.challenge)
  | response {key theirs now} : world.Accepted key theirs → world.Sent honest theirs →
      Explained world (key, Signed.toSign key (Response.forChallenge theirs.challenge now))
  | other {key bytes} : bytes.take 4 ≠ handshakeSchema → Explained world (key, bytes)

/-- The honest key accepted a challenge with the digest of the given one. -/
def World.Confirmed (world : World) (challenge : Challenge) (peer : PeerId) : Prop :=
  ∃ key, peer = key.peerId ∧ (honest key → ∃ theirs : VerifiedChallenge,
    Digest.hash theirs.challenge = Digest.hash challenge ∧ world.Accepted key theirs ∧
      world.Sent honest theirs)

/-- **The invariant of a session.** -/
structure World.SessionInv (world : World) (session : Session) : Prop where
  waiting : ∀ theirs, session.state.theirs? = some theirs → world.Sent honest theirs
  done : ∀ peer, session.state = .finished (.ok peer) →
    world.Confirmed honest session.initiator.challenge peer

/-- **The invariant of the runs.** -/
structure World.Inv (world : World) : Prop where
  explained : ∀ entry ∈ world.signatures, world.Explained honest entry
  session : ∀ session ∈ world.sessions, world.SessionInv honest session

/-- **The second world has the sessions of the first one, further on, and its responses.** -/
structure World.Grows (world next : World) : Prop where
  sessions : ∀ session ∈ world.sessions, ∃ later ∈ next.sessions,
    later.initiator = session.initiator ∧ ∀ theirs, session.Answered theirs → later.Answered theirs
  responded : ∀ entry ∈ world.responded, entry ∈ next.responded

variable {honest} {world next : World}

variable {theirs : VerifiedChallenge} {session : Session} {received : Option (List UInt8)}

section

variable (grows : world.Grows next)

include grows

theorem World.Grows.accepted {key : VerifyingKey}
    (accepted : world.Accepted key theirs) : next.Accepted key theirs := by
  rcases accepted with responded | ⟨session, member, isKey, answered⟩
  · exact Or.inl (grows.responded _ responded)
  · obtain ⟨later, inNext, same, keeps⟩ := grows.sessions session member
    exact Or.inr ⟨later, inNext, by rw [same, isKey], keeps theirs answered⟩

theorem World.Grows.sent (sent : world.Sent honest theirs) : next.Sent honest theirs := by
  obtain ⟨key, isClient, source⟩ := sent
  refine ⟨key, isClient, fun isHonest => ?_⟩
  obtain ⟨session, member, isKey, isChallenge⟩ := source isHonest
  obtain ⟨later, inNext, same, -⟩ := grows.sessions session member
  exact ⟨later, inNext, by rw [same, isKey], by rw [same, isChallenge]⟩

theorem World.Grows.explained {entry : VerifyingKey × List UInt8}
    (explained : world.Explained honest entry) : next.Explained honest entry := by
  cases explained with
  | @challenge session member =>
    obtain ⟨later, inNext, same, -⟩ := grows.sessions session member
    rw [← same]
    exact .challenge inNext
  | response accepted sent => exact .response (grows.accepted accepted) (grows.sent sent)
  | other foreign => exact .other foreign

theorem World.Grows.confirmed {challenge : Challenge} {peer : PeerId}
    (confirmed : world.Confirmed honest challenge peer) : next.Confirmed honest challenge peer := by
  obtain ⟨key, isPeer, reason⟩ := confirmed
  refine ⟨key, isPeer, fun isHonest => ?_⟩
  obtain ⟨theirs, sameDigest, accepted, sent⟩ := reason isHonest
  exact ⟨theirs, sameDigest, grows.accepted accepted, grows.sent sent⟩

theorem World.Grows.sessionInv
    (inv : world.SessionInv honest session) : next.SessionInv honest session :=
  ⟨fun theirs isTheirs => grows.sent (inv.waiting theirs isTheirs),
    fun peer isDone => grows.confirmed (inv.done peer isDone)⟩

end

theorem World.Grows.of_sessions_eq (same : next.sessions = world.sessions)
    (responded : ∀ entry ∈ world.responded, entry ∈ next.responded) : world.Grows next :=
  ⟨fun session member => ⟨session, same ▸ member, rfl, fun _ answered => answered⟩, responded⟩

/-! ### What was received -/

theorem preamble_take (issuer : VerifyingKey) (fields : List UInt8) :
    (Signed.header Challenge issuer ++ fields).take 4 = handshakeSchema ∧
      (Signed.header Response issuer ++ fields).take 4 = handshakeSchema :=
  ⟨rfl, rfl⟩

theorem World.Inv.sent (inv : world.Inv honest) (deliverable : world.Deliverable honest received)
    (challenged : ChallengedBy received theirs) : world.Sent honest theirs := by
  obtain ⟨signedChallenge, audience, now, maxDrift, decoded, verifies⟩ := challenged
  obtain ⟨verified, isVerified, rfl⟩ := verifyChallenge_eq_ok verifies
  have framed : signedChallenge.Framed := recvHandshakeMessage_framed decoded
  refine ⟨signedChallenge.issuer, rfl, fun isHonest => ?_⟩
  have logged := deliverable.1 signedChallenge decoded isHonest (tryVerify_eq_ok.mp isVerified).2
  generalize entryEq : (signedChallenge.issuer, signedChallenge.payloadBytes) = entry at logged
  cases inv.explained entry logged with
  | @challenge session member =>
    obtain ⟨isKey, bytes⟩ := Prod.mk.inj entryEq
    obtain ⟨-, payload⟩ := payload_of_toSign challenge_laws.roundTrip framed isVerified bytes
    exact ⟨session, member, isKey.symm, payload.symm⟩
  | response accepted sent =>
    obtain ⟨isKey, bytes⟩ := Prod.mk.inj entryEq
    rw [framed.payloadBytes_eq] at bytes
    exact absurd bytes (toSign_ne (α := Challenge) (β := Response) rfl preamble_challenge_ne_response)
  | other foreign =>
    obtain ⟨-, bytes⟩ := Prod.mk.inj entryEq
    rw [← bytes, framed.payloadBytes_eq] at foreign
    exact absurd (preamble_take _ _).1 foreign

theorem World.Inv.confirmed (inv : world.Inv honest)
    (deliverable : world.Deliverable honest received) {challenge : Challenge} {peer : PeerId}
    (answered : AnsweredBy challenge received peer) : world.Confirmed honest challenge peer := by
  obtain ⟨signedResponse, response, decoded, verifies⟩ := answered
  obtain ⟨verified, isVerified, isPeer, digest⟩ := verifyResponse_eq_ok verifies
  have framed : signedResponse.Framed := recvHandshakeMessage_framed decoded
  refine ⟨signedResponse.issuer, isPeer, fun isHonest => ?_⟩
  have logged := deliverable.2 signedResponse decoded isHonest (tryVerify_eq_ok.mp isVerified).2
  generalize entryEq : (signedResponse.issuer, signedResponse.payloadBytes) = entry at logged
  cases inv.explained entry logged with
  | challenge member =>
    obtain ⟨-, bytes⟩ := Prod.mk.inj entryEq
    rw [framed.payloadBytes_eq] at bytes
    exact absurd bytes (toSign_ne (α := Response) (β := Challenge) rfl preamble_challenge_ne_response.symm)
  | @response key theirs now accepted sent =>
    obtain ⟨rfl, bytes⟩ := Prod.mk.inj entryEq
    obtain ⟨-, payload⟩ := payload_of_toSign response_laws.roundTrip framed isVerified bytes
    rw [payload] at digest
    exact ⟨theirs, digest, accepted, sent⟩
  | other foreign =>
    obtain ⟨-, bytes⟩ := Prod.mk.inj entryEq
    rw [← bytes, framed.payloadBytes_eq] at foreign
    exact absurd (preamble_take _ _).2 foreign

/-! ### One step -/

theorem Session.Answered.recv
    (answered : session.Answered theirs) (received : Option (List UInt8)) :
    (session.recv received).Answered theirs := by
  obtain ⟨initiator, state, challenge⟩ := session
  obtain ⟨isTheirs, reached⟩ := answered
  change challenge = some theirs at isTheirs
  change state = _ ∨ ∃ result, state = _ ∧ _ at reached
  have step := initiator.recv_received state received
  unfold Session.recv
  generalize initiator.recv state received true = outcome at step ⊢
  obtain ⟨next, sent⟩ := outcome
  cases step with
  | failed => exact ⟨isTheirs, Or.inr ⟨_, rfl, fun _ isPeer => nomatch isPeer⟩⟩
  | ended => exact ⟨isTheirs, reached⟩
  | loser verifies =>
    rcases reached with waits | ⟨_, isOver, _⟩
    · obtain rfl := InitiateState.awaitAsLoser.inj waits
      exact ⟨isTheirs, Or.inr ⟨_, rfl, fun _ isPeer => (Except.ok.inj isPeer).symm⟩⟩
    · exact nomatch isOver
  | answered _ | won _ | lost _ | winner _ =>
    rcases reached with waits | ⟨_, isOver, _⟩
    · exact nomatch waits
    · exact nomatch isOver

section

variable (inv : world.Inv honest) (deliverable : world.Deliverable honest received) (holds : world.SessionInv honest session)

include inv deliverable holds

theorem World.Inv.recv : world.SessionInv honest (session.recv received) := by
  obtain ⟨initiator, state, challenge⟩ := session
  have step := initiator.recv_received state received
  unfold Session.recv
  generalize initiator.recv state received true = outcome at step ⊢
  obtain ⟨next, sent⟩ := outcome
  cases step with
  | failed => exact ⟨fun _ waits => (Option.some_ne_none _ waits.symm).elim,
      fun _ isOver => nomatch InitiateState.finished.inj isOver⟩
  | ended => exact holds
  | answered verifies | winner verifies | loser verifies =>
    refine ⟨fun _ waits => (Option.some_ne_none _ waits.symm).elim, fun peer isOver => ?_⟩
    obtain rfl := Except.ok.inj (InitiateState.finished.inj isOver)
    exact inv.confirmed deliverable verifies
  | won challenged | lost challenged =>
    refine ⟨fun theirs waits => ?_, fun _ isOver => nomatch isOver⟩
    obtain rfl := Option.some.inj waits
    exact inv.sent deliverable challenged

theorem World.Inv.recv_signatures {entry : VerifyingKey × List UInt8}
    (signed : entry ∈ (session.initiator.recv session.state received true).2.flatMap
      HandshakeMessage.signatures) :
    ∃ theirs now, (session.recv received).Answered theirs ∧ world.Sent honest theirs ∧
      entry = (session.initiator.key,
        Signed.toSign session.initiator.key (Response.forChallenge theirs.challenge now)) := by
  obtain ⟨initiator, state, challenge⟩ := session
  have step := initiator.recv_received state received
  unfold Session.recv
  dsimp only at signed ⊢
  generalize initiator.recv state received true = outcome at step signed ⊢
  obtain ⟨next, sent⟩ := outcome
  cases step with
  | failed | ended | answered _ | won _ | loser _ => exact nomatch signed
  | lost challenged =>
    rw [flatMap_singleton, Initiator.answer, createResponse_signatures] at signed
    obtain rfl := mem_singleton.mp signed
    exact ⟨_, initiator.now, ⟨rfl, Or.inl rfl⟩, inv.sent deliverable challenged,  rfl⟩
  | winner verifies =>
    rw [flatMap_singleton, Initiator.answer, createResponse_signatures] at signed
    obtain rfl := mem_singleton.mp signed
    exact ⟨_, initiator.now, ⟨rfl, Or.inr ⟨_, rfl, fun _ isPeer => (Except.ok.inj isPeer).symm⟩⟩,
      holds.waiting _ rfl, rfl⟩

end

/-- **A call of `respond` accepts and answers a challenge, or does neither.** -/
theorem Responder.respond_cases (responder : Responder) (cache : NonceCache)
    (received : Option (List UInt8)) :
    (responder.accepted? cache received = none ∧
      (responder.respond cache received true).2.1.flatMap HandshakeMessage.signatures = []) ∨
    ∃ theirs, ChallengedBy received theirs ∧ responder.accepted? cache received = some theirs ∧
      (responder.respond cache received true).2.1 =
        [.signedResponse (createResponse responder.signer theirs.challenge responder.now)] := by
  unfold Responder.accepted? Responder.respond
  cases decoded : recvHandshakeMessage received with
  | error error => exact Or.inl ⟨rfl, rfl⟩
  | ok message =>
    cases message with
    | signedResponse _ | rejection _ => exact Or.inl ⟨rfl, rfl⟩
    | signedChallenge signedChallenge =>
      dsimp only
      cases verifies : responder.verify signedChallenge with
      | error error => exact Or.inl ⟨rfl, rfl⟩
      | ok theirs =>
        rcases claim : cache.tryClaim theirs.clientId theirs.challenge.nonce responder.now with
          ⟨claimed, error | ⟨⟩⟩
        · simp only [claim]
          exact Or.inl ⟨rfl, rfl⟩
        · simp only [claim]
          obtain ⟨audience, now, maxDrift, isVerified⟩ := Responder.verify_eq_ok verifies
          exact Or.inr ⟨theirs, ⟨_, audience, now, maxDrift, decoded, isVerified⟩,
            by simp [verifies, Except.toOption], rfl⟩

/-- **The invariant from one world to a later one**: what is new was signed for a reason, and the new
sessions satisfy it. -/
theorem World.Inv.grow (inv : world.Inv honest) (grows : world.Grows next)
    (signed : ∀ entry ∈ next.signatures, entry ∈ world.signatures ∨ next.Explained honest entry)
    (sessions : ∀ session ∈ next.sessions, session ∈ world.sessions ∨ next.SessionInv honest session) :
    next.Inv honest := by
  refine ⟨fun entry member => ?_, fun session member => ?_⟩
  · rcases signed entry member with old | new
    · exact grows.explained (inv.explained entry old)
    · exact new
  · rcases sessions session member with old | new
    · exact grows.sessionInv (inv.session session old)
    · exact new

theorem World.Inv.initiate (inv : world.Inv honest) (initiator : Initiator) :
    (world.initiate initiator).Inv honest := by
  have grows : world.Grows (world.initiate initiator) :=
    ⟨fun session member => ⟨session, mem_append_left _ member, rfl, fun _ answered => answered⟩,
      fun _ member => member⟩
  refine inv.grow grows (fun entry member => ?_) fun session member => ?_
  · unfold World.initiate at member
    rw [signedChallenge_signatures] at member
    rcases mem_cons.mp member with rfl | old
    · have added : (⟨initiator, .awaitFirst, none⟩ : Session) ∈
          (world.initiate initiator).sessions :=
        mem_append_right _ (mem_singleton_self _)
      exact Or.inr (.challenge added)
    · exact Or.inl old
  · rcases mem_append.mp member with old | new
    · exact Or.inl old
    · obtain rfl := mem_singleton.mp new
      exact Or.inr ⟨fun _ waits => absurd waits (by simp [InitiateState.theirs?]), fun _ isOver =>
        nomatch isOver⟩

theorem World.Inv.receive (inv : world.Inv honest) {index : Nat}
    (at_index : world.sessions[index]? = some session)
    (deliverable : world.Deliverable honest received) :
    (world.receive index session received).Inv honest := by
  have member : session ∈ world.sessions := mem_of_getElem? at_index
  have inBounds : index < world.sessions.length := (List.getElem?_eq_some_iff.mp at_index).1
  have moved : session.recv received ∈ (world.receive index session received).sessions :=
    mem_set inBounds _
  have grows : world.Grows (world.receive index session received) := by
    refine ⟨fun other inWorld => ?_, fun _ inResponded => inResponded⟩
    obtain ⟨place, isOther⟩ := List.getElem?_of_mem inWorld
    by_cases same : index = place
    · obtain rfl : session = other := Option.some.inj (at_index.symm.trans (same ▸ isOther))
      exact ⟨_, moved, rfl, fun _ answered => answered.recv received⟩
    · exact ⟨other, mem_of_getElem? ((List.getElem?_set_ne same).trans isOther), rfl,
        fun _ answered => answered⟩
  have holds := inv.session session member
  refine inv.grow grows (fun entry signed => ?_) fun other inNext => ?_
  · rcases mem_append.mp signed with new | old
    · obtain ⟨theirs, now, answered, sent, rfl⟩ := inv.recv_signatures deliverable holds new
      exact Or.inr (.response (Or.inr ⟨_, moved, rfl, answered⟩) (grows.sent sent))
    · exact Or.inl old
  · rcases mem_or_eq_of_mem_set inNext with old | rfl
    · exact Or.inl old
    · exact Or.inr (grows.sessionInv (inv.recv deliverable holds))

theorem World.Inv.respond (inv : world.Inv honest) {responder : Responder}
    (deliverable : world.Deliverable honest received) :
    (world.respond responder received).Inv honest := by
  have grows : world.Grows (world.respond responder received) :=
    .of_sessions_eq rfl fun _ member => mem_append_right _ member
  refine inv.grow grows (fun entry member => ?_) fun session member => Or.inl member
  rcases mem_append.mp member with new | old
  · rcases responder.respond_cases (world.caches responder.signer.verifyingKey) received with
      ⟨-, silent⟩ | ⟨theirs, challenged, accepted, answer⟩
    · rw [silent] at new
      exact nomatch new
    · rw [answer, flatMap_singleton, createResponse_signatures] at new
      obtain rfl := mem_singleton.mp new
      have responded : (responder.signer.verifyingKey, theirs) ∈
          (world.respond responder received).responded := by
        simp [World.respond, accepted]
      exact Or.inr (.response (Or.inl responded) (grows.sent (inv.sent deliverable challenged)))
  · exact Or.inl old

theorem Step.inv (step : Step honest world next) (inv : world.Inv honest) : next.Inv honest := by
  cases step with
  | initiate => exact inv.initiate _
  | receive at_index deliverable => exact inv.receive at_index deliverable
  | respond _ deliverable => exact inv.respond deliverable
  | sign _ foreign =>
    refine inv.grow (.of_sessions_eq rfl fun _ member => member) (fun entry member => ?_)
      fun session member => Or.inl member
    rcases mem_cons.mp member with rfl | old
    · exact Or.inr (.other foreign)
    · exact Or.inl old

theorem Reachable.inv (reachable : Reachable honest world) : world.Inv honest := by
  unfold Reachable at reachable
  induction reachable with
  | refl => exact ⟨fun _ member => absurd member not_mem_nil, fun _ member =>
    absurd member not_mem_nil⟩
  | tail _ step ih => exact step.inv ih

end Invariant

/-! ### Agreement -/

/-- **The key is done with the challenge**: it returned the client from `respond`, or from its own
`initiate` after it answered. -/
def World.Done (world : World) (key : VerifyingKey) (theirs : VerifiedChallenge) : Prop :=
  (key, theirs) ∈ world.responded ∨ ∃ session ∈ world.sessions, session.initiator.key = key ∧
    session.answered = some theirs ∧ session.state = .finished (.ok theirs.clientId)

instance (world : World) (key : VerifyingKey) (theirs : VerifiedChallenge) :
    Decidable (world.Done key theirs) :=
  inferInstanceAs (Decidable (_ ∨ _))

/-- **Agreement**: whenever an initiator is done with an honest peer, that peer is done with the
initiator on the same challenge. -/
def World.Agreement (honest : VerifyingKey → Prop) (world : World) : Prop :=
  ∀ session ∈ world.sessions, ∀ key, honest key → session.state = .finished (.ok key.peerId) →
    world.Done key ⟨session.initiator.key.peerId, session.initiator.challenge⟩

/-- The challenges that the honest peers sent or answered. -/
def World.challenges (world : World) : List Challenge :=
  world.sessions.map (·.initiator.challenge) ++
    (world.sessions.filterMap (·.answered)).map (·.challenge) ++ world.responded.map (·.2.challenge)

/-- The hash has no collision among the challenges of the run. -/
def World.CollisionFree [Blake3] (world : World) : Prop :=
  ∀ first ∈ world.challenges, ∀ second ∈ world.challenges,
    Digest.hash first = Digest.hash second → first = second

/-- No two honest peers chose the same contents for a challenge, which has a random nonce. -/
def World.FreshChallenges (world : World) : Prop :=
  ∀ first ∈ world.sessions, ∀ second ∈ world.sessions,
    first.initiator.challenge = second.initiator.challenge → first.initiator.key = second.initiator.key

theorem World.Accepted.mem_challenges {world : World} {key : VerifyingKey} {theirs : VerifiedChallenge}
    (accepted : world.Accepted key theirs) : theirs.challenge ∈ world.challenges := by
  rcases accepted with responded | ⟨session, member, -, isTheirs, -⟩
  · exact mem_append_right _ (mem_map_of_mem (f := fun entry => entry.2.challenge) responded)
  · exact mem_append_left _ (mem_append_right _
      (mem_map_of_mem (mem_filterMap.mpr ⟨session, member, isTheirs⟩)))

/-- **Agreement on the challenge.** When an initiator is done with an honest peer, that peer has
accepted a challenge with exactly the initiator's contents: it returned from `respond`, or it answered
in its own `initiate`, which then waits for the last message or is over. It takes it from the
initiator, or from a key that is not honest. -/
theorem handshake_agreement [Ed25519] [Blake3] (honest : VerifyingKey → Prop) (world : World)
    (reachable : Reachable honest world) (collisionFree : world.CollisionFree)
    (fresh : world.FreshChallenges) (session : Session) (member : session ∈ world.sessions)
    (key : VerifyingKey) (isHonest : honest key)
    (finished : session.state = .finished (.ok key.peerId)) :
    ∃ client : VerifyingKey, (client = session.initiator.key ∨ ¬ honest client) ∧
      world.Accepted key ⟨client.peerId, session.initiator.challenge⟩ := by
  obtain ⟨signer, sameId, reason⟩ := (reachable.inv.session session member).done key.peerId finished
  obtain rfl := VerifyingKey.peerId_injective sameId
  obtain ⟨⟨clientId, challenge⟩, sameDigest, accepted, client, isClient, source⟩ := reason isHonest
  have sentByUs : session.initiator.challenge ∈ world.challenges :=
    List.mem_append_left _ (List.mem_append_left _
      (List.mem_map_of_mem (f := fun session => session.initiator.challenge) member))
  obtain rfl : challenge = session.initiator.challenge :=
    collisionFree _ accepted.mem_challenges _ sentByUs sameDigest
  obtain rfl : clientId = client.peerId := isClient
  refine ⟨client, ?_, accepted⟩
  by_cases clientHonest : honest client
  · obtain ⟨other, inWorld, isKey, sameChallenge⟩ := source clientHonest
    exact Or.inl (isKey.symm.trans (fresh other inWorld session member sameChallenge))
  · exact Or.inr clientHonest

/-! ### Two runs without agreement -/

section Build

variable [Ed25519] [Blake3] {honest : VerifyingKey → Prop} {world : World}
  {received : Option (List UInt8)}

theorem World.deliverable_of (message : HandshakeMessage)
    (decoded : recvHandshakeMessage received = .ok message)
    (signed : ∀ entry ∈ message.signatures, honest entry.1 → entry ∈ world.signatures) :
    world.Deliverable honest received := by
  refine ⟨fun challenge isMessage isHonest _ => ?_, fun response isMessage isHonest _ => ?_⟩
  · obtain rfl := Except.ok.inj (decoded.symm.trans isMessage)
    exact signed _ (mem_singleton_self _) isHonest
  · obtain rfl := Except.ok.inj (decoded.symm.trans isMessage)
    exact signed _ (mem_singleton_self _) isHonest

variable (reachable : Reachable honest world)

include reachable

theorem Reachable.initiate {initiator : Initiator}
    (isHonest : honest initiator.key) : Reachable honest (world.initiate initiator) :=
  reachable.tail (.initiate isHonest)

theorem Reachable.respond {responder : Responder}
    (message : HandshakeMessage) (isHonest : honest responder.signer.verifyingKey)
    (decoded : recvHandshakeMessage received = .ok message)
    (signed : ∀ entry ∈ message.signatures, honest entry.1 → entry ∈ world.signatures) :
    Reachable honest (world.respond responder received) :=
  reachable.tail (.respond isHonest (World.deliverable_of message decoded signed))

theorem Reachable.receive {index : Nat} {session : Session}
    (message : HandshakeMessage) (at_index : world.sessions[index]? = some session)
    (decoded : recvHandshakeMessage received = .ok message)
    (signed : ∀ entry ∈ message.signatures, honest entry.1 → entry ∈ world.signatures) :
    Reachable honest (world.receive index session received) :=
  reachable.tail (.receive at_index (World.deliverable_of message decoded signed))

end Build

/-- The keys `1` and `2`. -/
def IsPair (key : VerifyingKey) : Prop := key = ⟨1⟩ ∨ key = ⟨2⟩

instance : DecidablePred IsPair := fun _ => inferInstanceAs (Decidable (_ ∨ _))

/-- Key `1` calls `initiate` for key `2`. -/
def alice : Initiator := ⟨signerOf 1, .known ⟨2⟩, ⟨0⟩, ⟨7⟩⟩

/-- Key `2` calls `initiate` for key `1`. -/
def bob : Initiator := ⟨signerOf 2, .known ⟨1⟩, ⟨0⟩, ⟨8⟩⟩

/-- Key `2` calls `respond`. -/
def bobResponds : Responder := ⟨signerOf 2, ⟨2⟩, none, ⟨0⟩, maxPlausibleDrift⟩

section Runs

variable [Ed25519] [Blake3]

/-- Key `2` responds to the challenge of key `1` as signed by the given one, and the response goes to
key `1`. -/
def relayed (signer : Signer) : World :=
  ((World.start.initiate alice).respond bobResponds
      (some (Signed.sealPayload signer alice.challenge).bytes)).receive 0 ⟨alice, .awaitFirst, none⟩
    (some (createResponse bob.signer alice.challenge ⟨0⟩).bytes)

/-- A simultaneous open in which key `2` is done, and its last message not yet received. -/
def opened : World :=
  ((((World.start.initiate alice).initiate bob).receive 0 ⟨alice, .awaitFirst, none⟩
      (some bob.signedChallenge.bytes)).receive 1 ⟨bob, .awaitFirst, none⟩
    (some alice.signedChallenge.bytes)).receive 1 ⟨bob, .awaitAsWinner ⟨⟨1⟩, alice.challenge⟩, none⟩
      (some (createResponse alice.signer bob.challenge ⟨0⟩).bytes)

end Runs

attribute [local instance] lastBytes shownKeys

theorem relayed_reachable :
    Reachable IsPair (relayed (signerOf 1)) ∧ Reachable IsPair (relayed (signerOf 3)) := by
  have initiated : Reachable IsPair (World.start.initiate alice) :=
    Reachable.initiate .refl (by decide)
  let answer := HandshakeMessage.signedResponse (createResponse bob.signer alice.challenge ⟨0⟩)
  refine ⟨Reachable.receive ?_ answer ?_ ?_ ?_, Reachable.receive ?_ answer ?_ ?_ ?_⟩
  · exact initiated.respond (.signedChallenge (.sealPayload (signerOf 1) alice.challenge))
      (by decide) (by decide +kernel) (by decide +kernel)
  · rfl
  · decide +kernel
  · decide +kernel
  · exact initiated.respond (.signedChallenge (.sealPayload (signerOf 3) alice.challenge))
      (by decide) (by decide +kernel) (by decide +kernel)
  · rfl
  · decide +kernel
  · decide +kernel

theorem opened_reachable : Reachable IsPair opened := by
  have initiated : Reachable IsPair ((World.start.initiate alice).initiate bob) :=
    (Reachable.initiate .refl (by decide)).initiate (by decide)
  have won : bob.recv .awaitFirst (some alice.signedChallenge.bytes) true =
      (.awaitAsWinner ⟨⟨1⟩, alice.challenge⟩, []) := by decide +kernel
  refine Reachable.receive (Reachable.receive (Reachable.receive initiated
      (.signedChallenge bob.signedChallenge) rfl ?_ ?_)
      (.signedChallenge alice.signedChallenge) ?_ ?_ ?_)
    (.signedResponse (createResponse alice.signer bob.challenge ⟨0⟩)) ?_ ?_ ?_
  · decide +kernel
  · decide +kernel
  · rfl
  · decide +kernel
  · decide +kernel
  · show some (Session.recv ⟨bob, .awaitFirst, none⟩ (some alice.signedChallenge.bytes)) = _
    unfold Session.recv
    rw [won]
    rfl
  · decide +kernel
  · decide +kernel

/-- **Agreement fails in two ways.** Key `3` signs the challenge of key `1` again, key `2` responds to
it, and key `1` ends with key `2`, which only ever returned key `3`. And in a simultaneous open the
side that sends last is done while the other one still waits. -/
theorem agreement_fails :
    (Reachable IsPair (relayed (signerOf 3)) ∧ (relayed (signerOf 3)).CollisionFree ∧
      (relayed (signerOf 3)).FreshChallenges ∧ ¬ (relayed (signerOf 3)).Agreement IsPair ∧
      (relayed (signerOf 3)).responded = [(⟨2⟩, ⟨⟨3⟩, alice.challenge⟩)]) ∧
    Reachable IsPair opened ∧ opened.CollisionFree ∧ opened.FreshChallenges ∧
      ¬ opened.Agreement IsPair := by
  refine ⟨⟨relayed_reachable.2, ?_, ?_, fun agreement => ?_, ?_⟩, opened_reachable, ?_, ?_,
    fun agreement => ?_⟩
  · unfold World.CollisionFree; decide +kernel
  · unfold World.FreshChallenges; decide +kernel
  · have done := agreement _ (List.mem_of_getElem? (i := 0) rfl) ⟨2⟩ (by decide) (by decide +kernel)
    revert done
    decide +kernel
  · decide +kernel
  · unfold World.CollisionFree; decide +kernel
  · unfold World.FreshChallenges; decide +kernel
  · have done := agreement _ (List.mem_of_getElem? (i := 1) rfl) ⟨1⟩ (by decide) (by decide +kernel)
    revert done
    decide +kernel

theorem handshake_agreement_relayed : ∃ client : VerifyingKey, (client = ⟨1⟩ ∨ ¬ IsPair client) ∧
      (relayed (signerOf 1)).Accepted ⟨2⟩ ⟨client.peerId, alice.challenge⟩ := by
  have agreed := handshake_agreement IsPair (relayed (signerOf 1)) relayed_reachable.1
    (by unfold World.CollisionFree; decide +kernel) (by unfold World.FreshChallenges; decide +kernel)
    (Session.recv ⟨alice, .awaitFirst, none⟩
      (some (createResponse bob.signer alice.challenge ⟨0⟩).bytes))
    (List.mem_of_getElem? (i := 0) rfl) ⟨2⟩ (by decide) (by decide +kernel)
  rw [Session.recv_initiator] at agreed
  exact agreed

end Subduction
