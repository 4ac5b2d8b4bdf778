/-
**A simultaneous open resolves.**

Two honest peers call `initiate` towards each other over a reliable ordered duplex channel. Each call
is a sequence of starts, sends and receives, and the two sequences interleave in any way. What one side
has sent is a prefix of a fixed script, its challenge and its answer, so where a side stands in its own
code is one number from `0` to `5`, whatever the other side does.

Main result: `simultaneous_open_resolves`.
-/

import Subduction.Handshake.Agreement

set_option linter.unusedSectionVars false

namespace Subduction

open Signed Initiator List Function

/-! ### The channel -/

/-- **One side of the channel**: its call of `initiate` with what that is still sending, everything it
has put on the channel, how many messages it has taken off, and whether it acts as the responder. -/
structure Endpoint where
  call : Option InitiateState
  outbox : List HandshakeMessage
  sent : List (List UInt8)
  received : Nat
  responder : Bool
deriving DecidableEq

def Endpoint.new : Endpoint := ⟨none, [], [], 0, false⟩

/-- What a side does next. -/
inductive DuplexAction where
  | start
  | send
  | receive
deriving DecidableEq

/-- The call waits as the side that answers first. -/
def InitiateState.isLoser : InitiateState → Bool
  | awaitAsLoser _ => true
  | _ => false

/-- The call is over, up to its last send. -/
def InitiateState.isFinished : InitiateState → Bool
  | finished _ => true
  | _ => false

/-- What the call has returned: its sends are awaited before it returns. -/
def Endpoint.returned (endpoint : Endpoint) : Option (Except AuthenticateError PeerId) :=
  match endpoint.call, endpoint.outbox with
  | some (.finished result), [] => some result
  | _, _ => none

section Channel

variable [Ed25519] [Blake3]

/-- **One step of a side**, where the other one has put `incoming` on the channel. -/
def Endpoint.step (initiator : Initiator) (incoming : List (List UInt8)) (endpoint : Endpoint) :
    DuplexAction → Option Endpoint
  | .start =>
    match endpoint.call with
    | none => some { endpoint with
        call := some .awaitFirst
        outbox := [.signedChallenge initiator.signedChallenge] }
    | some _ => none
  | .send =>
    match endpoint.outbox with
    | message :: rest => some { endpoint with
        outbox := rest
        sent := endpoint.sent ++ [message.encode] }
    | [] => none
  | .receive =>
    match endpoint.call, endpoint.outbox, incoming[endpoint.received]? with
    | some state, [], some bytes =>
      if state.isFinished then none
      else
        let (next, messages) := initiator.recv state (some bytes) true
        some ⟨some next, messages, endpoint.sent, endpoint.received + 1,
          endpoint.responder || next.isLoser⟩
    | _, _, _ => none

abbrev Duplex := Bool → Endpoint

/-- One step of one side. -/
def Duplex.step (initiators : Bool → Initiator) (duplex : Duplex) (event : Bool × DuplexAction) :
    Option Duplex :=
  ((duplex event.1).step (initiators event.1) (duplex !event.1).sent event.2).map
    (Function.update duplex event.1)

/-- **Both sides in any order.** -/
def Duplex.run (initiators : Bool → Initiator) (events : List (Bool × DuplexAction)) : Option Duplex :=
  events.foldlM (fun duplex event => duplex.step initiators event) (fun _ => Endpoint.new : Duplex)

end Channel

/-! ### Honest peers that mean each other -/

/-- The challenge is for the other call: for its key, or for the discovery id that it was made with. -/
def Initiator.Addresses (initiator other : Initiator) : Prop :=
  initiator.audience = .known other.key.peerId ∨
    ∃ id, initiator.audience = .discover id ∧ other.audience = .discover id

/-- **Two honest peers that call `initiate` towards each other.** -/
structure Meeting [Ed25519] (ours theirs : Initiator) : Prop where
  honest : Signed.Honest ours.signer
  otherHonest : Signed.Honest theirs.signer
  distinct : ours.key ≠ theirs.key
  addresses : ours.Addresses theirs
  addressed : theirs.Addresses ours
  drift : (ours.now.absDiff theirs.now).nanos ≤ simultaneousOpenMaxDrift.nanos

theorem TimestampSeconds.absDiff_comm (timestamp other : TimestampSeconds) :
    timestamp.absDiff other = other.absDiff timestamp := by
  rw [absDiff, absDiff, max_comm, min_comm]

section Messages

variable [Ed25519] [Blake3] {ours theirs : Initiator}

theorem Meeting.symm (meeting : Meeting ours theirs) : Meeting theirs ours :=
  ⟨meeting.otherHonest, meeting.honest, meeting.distinct.symm, meeting.addressed, meeting.addresses,
    by rw [TimestampSeconds.absDiff_comm]; exact meeting.drift⟩

variable {signer : Signer} {incoming : List (List UInt8)}

theorem recvHandshakeMessage_challenge (honest : Signed.Honest signer) (challenge : Challenge) :
    recvHandshakeMessage (some (Signed.sealPayload signer challenge).bytes) =
      .ok (.signedChallenge (.sealPayload signer challenge)) := by
  have decodes := tryDecode_sealPayload challenge_laws honest challenge trivial
  have bytes : ∃ rest, (Signed.sealPayload signer challenge).bytes =
      0x53 :: 0x55 :: 0x48 :: 0x00 :: 0x00 :: rest := ⟨_, rfl⟩
  obtain ⟨rest, isBytes⟩ := bytes
  rw [isBytes] at decodes ⊢
  simp [recvHandshakeMessage, HandshakeMessage.tryDecode, Decode.ensure, handshakeSchema, decodes,
    bind, Except.bind, pure, Except.pure]

theorem recvHandshakeMessage_response (honest : Signed.Honest signer) (response : Response) :
    recvHandshakeMessage (some (Signed.sealPayload signer response).bytes) =
      .ok (.signedResponse (.sealPayload signer response)) := by
  have decodes := tryDecode_sealPayload response_laws honest response trivial
  have bytes : ∃ rest, (Signed.sealPayload signer response).bytes =
      0x53 :: 0x55 :: 0x48 :: 0x00 :: 0x01 :: rest := ⟨_, rfl⟩
  obtain ⟨rest, isBytes⟩ := bytes
  rw [isBytes] at decodes ⊢
  simp [recvHandshakeMessage, HandshakeMessage.tryDecode, Decode.ensure, handshakeSchema, decodes,
    bind, Except.bind, pure, Except.pure]

theorem verifyChallenge_sealPayload (honest : Signed.Honest signer)
    (challenge : Challenge) (audience : Audience) (now : TimestampSeconds) (maxDrift : Duration) :
    verifyChallenge (.sealPayload signer challenge) audience now maxDrift =
      match challenge.validate audience now maxDrift with
      | .error error => .error (.challengeValidation error)
      | .ok () => .ok ⟨signer.verifyingKey.peerId, challenge⟩ := by
  obtain ⟨verified, verifies, isSigned, isPayload⟩ :=
    tryVerify_sealPayload challenge_laws honest challenge trivial
  unfold verifyChallenge
  rw [verifies]
  dsimp only
  rw [isSigned, isPayload]
  cases challenge.validate audience now maxDrift with
  | error error => rfl
  | ok valid => rfl

theorem verifyResponse_createResponse (honest : Signed.Honest signer)
    (challenge : Challenge) (now : TimestampSeconds) :
    verifyResponse (createResponse signer challenge now) challenge =
      .ok ⟨signer.verifyingKey.peerId, .forChallenge challenge now⟩ := by
  obtain ⟨verified, verifies, isSigned, isPayload⟩ :=
    tryVerify_sealPayload response_laws honest (Response.forChallenge challenge now) trivial
  have valid : (Response.forChallenge challenge now).validate challenge = .ok () := by
    unfold Response.validate
    exact if_neg fun different => different rfl
  simp only [verifyResponse, createResponse, verifies, isSigned, isPayload, valid,
    sealPayload_issuer]

/-- What the one knows of the challenge of the other. -/
def Initiator.verified (initiator : Initiator) : VerifiedChallenge :=
  ⟨initiator.key.peerId, initiator.challenge⟩

section

variable (meeting : Meeting ours theirs)

include meeting

theorem Meeting.verifyTheirs : ours.verifyTheirs theirs.signedChallenge = .ok theirs.verified := by
  have fresh : theirs.challenge.isFresh ours.now simultaneousOpenMaxDrift = true := by
    rw [Challenge.isFresh, decide_eq_true_iff]
    show (theirs.now.absDiff ours.now).nanos ≤ _
    rw [TimestampSeconds.absDiff_comm]
    exact meeting.drift
  have valid : ∀ audience, theirs.challenge.audience = audience →
      theirs.challenge.validate audience ours.now simultaneousOpenMaxDrift = .ok () := by
    intro audience same
    rw [Challenge.validate, if_neg (fun different => different same), fresh]
    rfl
  have verifies := verifyChallenge_sealPayload meeting.otherHonest theirs.challenge
  unfold Initiator.verifyTheirs Initiator.signedChallenge
  rcases meeting.addressed with known | ⟨id, discovers, ourAudience⟩
  · rw [verifies, valid _ known]
    rfl
  · have notKnown : theirs.challenge.validate (.known ours.key.peerId) ours.now
        simultaneousOpenMaxDrift = .error .invalidAudience := by
      rw [Challenge.validate, if_pos]
      rw [show theirs.challenge.audience = .discover id from discovers]
      exact nofun
    rw [verifies, notKnown, ourAudience]
    show verifyChallenge _ _ _ _ = _
    rw [verifies, valid _ discovers]
    rfl

theorem Meeting.bytes_ne : ours.signedChallenge.bytes ≠ theirs.signedChallenge.bytes := by
  intro same
  have ourBytes := tryDecode_sealPayload challenge_laws meeting.honest ours.challenge trivial
  have theirBytes := tryDecode_sealPayload challenge_laws meeting.otherHonest
    theirs.challenge trivial
  rw [show (Signed.sealPayload ours.signer ours.challenge).bytes = _ from same] at ourBytes
  have sealed := Except.ok.inj (ourBytes.symm.trans theirBytes)
  exact meeting.distinct (congrArg Signed.issuer sealed)

def Initiator.response (initiator other : Initiator) : Signed Response :=
  createResponse initiator.signer other.challenge initiator.now

/-! ### The receives -/

theorem Meeting.recv_challenge : ours.recv .awaitFirst (some theirs.signedChallenge.bytes) true =
      if theirs.signedChallenge.bytes < ours.signedChallenge.bytes then
        (.awaitAsWinner theirs.verified, [])
      else (.awaitAsLoser theirs.verified, [.signedResponse (ours.response theirs)]) := by
  have arrives : recvHandshakeMessage (some theirs.signedChallenge.bytes) =
      .ok (.signedChallenge theirs.signedChallenge) :=
    recvHandshakeMessage_challenge meeting.otherHonest theirs.challenge
  have otherKey : theirs.verified.clientId ≠ ours.key.peerId :=
    fun same => meeting.distinct (VerifyingKey.peerId_injective same.symm)
  simp only [Initiator.recv, arrives, Initiator.simultaneousOpen, if_neg meeting.bytes_ne,
    meeting.verifyTheirs, if_neg otherKey]
  rfl

theorem Meeting.recvVerifiedResponse :
    ours.recvVerifiedResponse (some (theirs.response ours).bytes) = .ok theirs.key.peerId := by
  have arrives : recvHandshakeMessage (some (theirs.response ours).bytes) =
      .ok (.signedResponse (theirs.response ours)) :=
    recvHandshakeMessage_response meeting.otherHonest (.forChallenge ours.challenge theirs.now)
  have verifies : verifyResponse (theirs.response ours) ours.challenge =
      .ok ⟨theirs.key.peerId, .forChallenge ours.challenge theirs.now⟩ :=
    verifyResponse_createResponse meeting.otherHonest ours.challenge theirs.now
  simp only [Initiator.recvVerifiedResponse, arrives, verifies]

theorem Meeting.recv_winner :
    ours.recv (.awaitAsWinner theirs.verified) (some (theirs.response ours).bytes) true =
      (.finished (.ok theirs.key.peerId), [.signedResponse (ours.response theirs)]) := by
  simp only [Initiator.recv, meeting.recvVerifiedResponse]
  exact if_neg fun different => different rfl

theorem Meeting.recv_loser :
    ours.recv (.awaitAsLoser theirs.verified) (some (theirs.response ours).bytes) true =
      (.finished (.ok theirs.key.peerId), []) := by
  simp only [Initiator.recv, meeting.recvVerifiedResponse]
  exact if_neg fun different => different rfl

end

/-! ### The points of a side -/

/-- **The side that wins**, at the points of its code: it has not started, it sends its challenge, it
waits, it waits for the answer to it, it answers, it is done. -/
def winnerAt (ours theirs : Initiator) : Nat → Endpoint
  | 0 => .new
  | 1 => ⟨some .awaitFirst, [.signedChallenge ours.signedChallenge], [], 0, false⟩
  | 2 => ⟨some .awaitFirst, [], [ours.signedChallenge.bytes], 0, false⟩
  | 3 => ⟨some (.awaitAsWinner theirs.verified), [], [ours.signedChallenge.bytes], 1, false⟩
  | 4 => ⟨some (.finished (.ok theirs.key.peerId)), [.signedResponse (ours.response theirs)],
      [ours.signedChallenge.bytes], 2, false⟩
  | _ => ⟨some (.finished (.ok theirs.key.peerId)), [],
      [ours.signedChallenge.bytes, (ours.response theirs).bytes], 2, false⟩

/-- **The side that loses** answers before it waits for the answer. -/
def loserAt (ours theirs : Initiator) : Nat → Endpoint
  | 0 => .new
  | 1 => ⟨some .awaitFirst, [.signedChallenge ours.signedChallenge], [], 0, false⟩
  | 2 => ⟨some .awaitFirst, [], [ours.signedChallenge.bytes], 0, false⟩
  | 3 => ⟨some (.awaitAsLoser theirs.verified), [.signedResponse (ours.response theirs)],
      [ours.signedChallenge.bytes], 1, true⟩
  | 4 => ⟨some (.awaitAsLoser theirs.verified), [],
      [ours.signedChallenge.bytes, (ours.response theirs).bytes], 1, true⟩
  | _ => ⟨some (.finished (.ok theirs.key.peerId)), [],
      [ours.signedChallenge.bytes, (ours.response theirs).bytes], 2, true⟩

/-- What a side can have sent. -/
def Initiator.script (initiator other : Initiator) : List (List UInt8) :=
  [initiator.signedChallenge.bytes, (initiator.response other).bytes]

theorem winnerAt_sent (point : Nat) : (winnerAt ours theirs point).sent <+: ours.script theirs := by
  unfold winnerAt
  split <;> simp [Initiator.script, Endpoint.new]

theorem loserAt_sent (point : Nat) : (loserAt ours theirs point).sent <+: ours.script theirs := by
  unfold loserAt
  split <;> simp [Initiator.script, Endpoint.new]

/-- What the winner does at a point, and how many messages it needs for it. -/
def winnerDoes : Nat → DuplexAction × Nat
  | 0 => (.start, 0)
  | 1 => (.send, 0)
  | 2 => (.receive, 1)
  | 3 => (.receive, 2)
  | _ => (.send, 0)

/-- What the loser does at a point, and how many messages it needs for it. -/
def loserDoes : Nat → DuplexAction × Nat
  | 0 => (.start, 0)
  | 1 => (.send, 0)
  | 2 => (.receive, 1)
  | 3 => (.send, 0)
  | _ => (.receive, 2)

theorem Initiator.isPrefix_script {initiator other : Initiator}
    (sent : incoming <+: initiator.script other) :
    incoming = [] ∨ incoming = [initiator.signedChallenge.bytes] ∨
      incoming = [initiator.signedChallenge.bytes, (initiator.response other).bytes] := by
  rw [prefix_iff_eq_take] at sent
  have short := sent ▸ length_take_le _ _
  rw [sent, Initiator.script]
  match incoming.length with
  | 0 => exact Or.inl rfl
  | 1 => exact Or.inr (Or.inl rfl)
  | count + 2 => exact Or.inr (Or.inr (by simp))

theorem Meeting.winner_step (meeting : Meeting ours theirs)
    (wins : theirs.signedChallenge.bytes < ours.signedChallenge.bytes)
    (sent : incoming <+: theirs.script ours) {point : Nat}
    (bound : point < 5) (action : DuplexAction) :
    (winnerAt ours theirs point).step ours incoming action =
      if action = (winnerDoes point).1 ∧ (winnerDoes point).2 ≤ incoming.length then
        some (winnerAt ours theirs (point + 1))
      else none := by
  have opens := meeting.recv_challenge
  rw [if_pos wins] at opens
  rcases isPrefix_script sent with rfl | rfl | rfl <;> interval_cases point <;>
    cases action <;>
    simp [winnerAt, winnerDoes, Endpoint.step, Endpoint.new, HandshakeMessage.encode,
      InitiateState.isFinished, InitiateState.isLoser, opens, meeting.recv_winner]

theorem Meeting.loser_step (meeting : Meeting ours theirs)
    (loses : ¬ theirs.signedChallenge.bytes < ours.signedChallenge.bytes)
    (sent : incoming <+: theirs.script ours) {point : Nat}
    (bound : point < 5) (action : DuplexAction) :
    (loserAt ours theirs point).step ours incoming action =
      if action = (loserDoes point).1 ∧ (loserDoes point).2 ≤ incoming.length then
        some (loserAt ours theirs (point + 1))
      else none := by
  have opens := meeting.recv_challenge
  rw [if_neg loses] at opens
  rcases isPrefix_script sent with rfl | rfl | rfl <;> interval_cases point <;>
    cases action <;>
    simp [loserAt, loserDoes, Endpoint.step, Endpoint.new, HandshakeMessage.encode,
      InitiateState.isFinished, InitiateState.isLoser, opens, meeting.recv_loser]

theorem winner_done (sent : incoming <+: theirs.script ours)
    (action : DuplexAction) : (winnerAt ours theirs 5).step ours incoming action = none := by
  rcases isPrefix_script sent with rfl | rfl | rfl <;> cases action <;> rfl

theorem loser_done (sent : incoming <+: theirs.script ours)
    (action : DuplexAction) : (loserAt ours theirs 5).step ours incoming action = none := by
  rcases isPrefix_script sent with rfl | rfl | rfl <;> cases action <;> rfl

end Messages

/-! ### The runs -/

section Runs

variable [Ed25519] [Blake3] {initiators : Bool → Initiator}

/-- The two sides at their points. -/
def placed (initiators : Bool → Initiator) (winner : Bool) (wins loses : Nat) : Duplex := fun side =>
  if side = winner then winnerAt (initiators side) (initiators !side) wins
  else loserAt (initiators side) (initiators !side) loses

/-- The two meet, and the challenge of the winner is the greater one. -/
structure Decided (initiators : Bool → Initiator) (winner : Bool) : Prop where
  meeting : Meeting (initiators winner) (initiators !winner)
  greater : (initiators !winner).signedChallenge.bytes < (initiators winner).signedChallenge.bytes

theorem exists_decided (meeting : Meeting (initiators false) (initiators true)) :
    ∃ winner, Decided initiators winner := by
  by_cases less : (initiators false).signedChallenge.bytes < (initiators true).signedChallenge.bytes
  · exact ⟨true, meeting.symm, less⟩
  · refine ⟨false, meeting, ?_⟩
    by_contra notGreater
    exact meeting.bytes_ne (List.le_antisymm (List.not_lt.mp notGreater) (List.not_lt.mp less))

variable {winner : Bool} {wins loses : Nat}

theorem placed_winner : placed initiators winner wins loses winner =
    winnerAt (initiators winner) (initiators !winner) wins := if_pos rfl

theorem placed_loser : placed initiators winner wins loses (!winner) =
    loserAt (initiators !winner) (initiators winner) loses := by
  rw [placed, if_neg (Bool.not_ne_self winner), Bool.not_not]

theorem update_winner {next : Nat} : Function.update (placed initiators winner wins loses) winner
        (winnerAt (initiators winner) (initiators !winner) next) =
      placed initiators winner next loses := by
  funext side
  by_cases same : side = winner
  · rw [same, update_self, placed_winner]
  · rw [update_of_ne same, placed, placed, if_neg same, if_neg same]

theorem update_loser {next : Nat} : Function.update (placed initiators winner wins loses) (!winner)
        (loserAt (initiators !winner) (initiators winner) next) =
      placed initiators winner wins next := by
  funext side
  by_cases same : side = winner
  · rw [same, update_of_ne (Bool.self_ne_not winner), placed_winner, placed_winner]
  · obtain rfl : side = !winner := Bool.eq_not_of_ne same
    rw [update_self, placed_loser]

section

variable (decided : Decided initiators winner)

include decided

theorem Decided.step_winner (action : DuplexAction) (bound : wins < 5) :
    (placed initiators winner wins loses).step initiators (winner, action) =
      if action = (winnerDoes wins).1 ∧ (winnerDoes wins).2 ≤
          (loserAt (initiators !winner) (initiators winner) loses).sent.length then
        some (placed initiators winner (wins + 1) loses) else none := by
  rw [Duplex.step, placed_winner, placed_loser,
    decided.meeting.winner_step decided.greater (loserAt_sent loses) bound, apply_ite (Option.map _)]
  show (if _ then some (Function.update _ _ _) else none) = _
  rw [update_winner]

theorem Decided.step_loser (action : DuplexAction) (bound : loses < 5) :
    (placed initiators winner wins loses).step initiators (!winner, action) =
      if action = (loserDoes loses).1 ∧ (loserDoes loses).2 ≤
          (winnerAt (initiators winner) (initiators !winner) wins).sent.length then
        some (placed initiators winner wins (loses + 1)) else none := by
  have lesser := List.lt_asymm decided.greater
  rw [Duplex.step]
  show Option.map _ ((placed initiators winner wins loses !winner).step (initiators !winner)
    (placed initiators winner wins loses (!!winner)).sent action) = _
  rw [Bool.not_not, placed_winner, placed_loser,
    decided.meeting.symm.loser_step lesser (winnerAt_sent wins) bound, apply_ite (Option.map _)]
  show (if _ then some (Function.update _ _ _) else none) = _
  rw [update_loser]

theorem Decided.step (winsBound : wins ≤ 5) (losesBound : loses ≤ 5)
    {event : Bool × DuplexAction} {next : Duplex}
    (steps : (placed initiators winner wins loses).step initiators event = some next) :
    (wins < 5 ∧ next = placed initiators winner (wins + 1) loses) ∨
      loses < 5 ∧ next = placed initiators winner wins (loses + 1) := by
  obtain ⟨side, action⟩ := event
  by_cases same : side = winner
  · obtain rfl := same
    rcases winsBound.lt_or_eq with bound | rfl
    · rw [decided.step_winner action bound] at steps
      split at steps
      · exact Or.inl ⟨bound, (Option.some.inj steps).symm⟩
      · exact nomatch steps
    · rw [Duplex.step, placed_winner, placed_loser, winner_done (loserAt_sent loses)] at steps
      exact nomatch steps
  · obtain rfl : side = !winner := Bool.eq_not_of_ne same
    rcases losesBound.lt_or_eq with bound | rfl
    · rw [decided.step_loser action bound] at steps
      split at steps
      · exact Or.inr ⟨bound, (Option.some.inj steps).symm⟩
      · exact nomatch steps
    · rw [Duplex.step, show (!(!winner, action).1) = winner from Bool.not_not winner, placed_winner,
        placed_loser, loser_done (winnerAt_sent wins)] at steps
      exact nomatch steps

theorem Decided.run {events : List (Bool × DuplexAction)}
    {duplex : Duplex} (runs : Duplex.run initiators events = some duplex) :
    ∃ wins loses, wins ≤ 5 ∧ loses ≤ 5 ∧ events.length = wins + loses ∧
      duplex = placed initiators winner wins loses := by
  have fromPoints : ∀ (events : List (Bool × DuplexAction)) (wins loses : Nat), wins ≤ 5 → loses ≤ 5 →
      events.foldlM (fun duplex event => duplex.step initiators event)
        (placed initiators winner wins loses) = some duplex →
      ∃ wins' loses', wins' ≤ 5 ∧ loses' ≤ 5 ∧ events.length + (wins + loses) = wins' + loses' ∧
        duplex = placed initiators winner wins' loses' := by
    intro events
    induction events with
    | nil =>
      intro wins loses winsBound losesBound runs
      exact ⟨wins, loses, winsBound, losesBound, Nat.zero_add _, (Option.some.inj runs).symm⟩
    | cons event events ih =>
      intro wins loses winsBound losesBound runs
      rw [foldlM_cons] at runs
      obtain ⟨next, steps, rest⟩ := Option.bind_eq_some_iff.mp runs
      rw [length_cons]
      rcases decided.step winsBound losesBound steps with ⟨bound, rfl⟩ | ⟨bound, rfl⟩
      · obtain ⟨wins', loses', winsBound', losesBound', count, isPlaced⟩ :=
          ih (wins + 1) loses bound losesBound rest
        exact ⟨wins', loses', winsBound', losesBound', by omega, isPlaced⟩
      · obtain ⟨wins', loses', winsBound', losesBound', count, isPlaced⟩ :=
          ih wins (loses + 1) winsBound bound rest
        exact ⟨wins', loses', winsBound', losesBound', by omega, isPlaced⟩
  have start : (fun _ => Endpoint.new : Duplex) = placed initiators winner 0 0 := by
    funext side
    show Endpoint.new = if _ then Endpoint.new else Endpoint.new
    rw [ite_self]
  rw [Duplex.run, start] at runs
  exact fromPoints events 0 0 (by decide) (by decide) runs

theorem Decided.stuck (winsBound : wins ≤ 5) (losesBound : loses ≤ 5)
    (stuck : ∀ event, (placed initiators winner wins loses).step initiators event = none) :
    wins = 5 ∧ loses = 5 := by
  have winnerWaits : wins < 5 →
      (loserAt (initiators !winner) (initiators winner) loses).sent.length < (winnerDoes wins).2 := by
    intro bound
    have none := stuck (winner, (winnerDoes wins).1)
    rw [decided.step_winner _ bound] at none
    by_contra enough
    rw [if_pos ⟨rfl, not_lt.mp enough⟩] at none
    exact nomatch none
  have loserWaits : loses < 5 →
      (winnerAt (initiators winner) (initiators !winner) wins).sent.length < (loserDoes loses).2 := by
    intro bound
    have none := stuck (!winner, (loserDoes loses).1)
    rw [decided.step_loser _ bound] at none
    by_contra enough
    rw [if_pos ⟨rfl, not_lt.mp enough⟩] at none
    exact nomatch none
  -- of two sides that wait, the one further back has been sent what it waits for
  interval_cases wins <;> interval_cases loses <;>
    simp_all [winnerAt, loserAt, winnerDoes, loserDoes, Endpoint.new]

end

/-- **A simultaneous open resolves.** Whatever the order of their sends and receives, two honest peers
that call `initiate` towards each other take at most ten steps; and when no step is left, each call has
returned the other peer, and exactly one of them acted as the responder. -/
theorem simultaneous_open_resolves (initiators : Bool → Initiator)
    (meeting : Meeting (initiators false) (initiators true)) (events : List (Bool × DuplexAction))
    (duplex : Duplex) (runs : Duplex.run initiators events = some duplex) :
    events.length ≤ 10 ∧ ((∀ event, duplex.step initiators event = none) →
        (∀ side, (duplex side).returned = some (.ok (initiators !side).key.peerId)) ∧
          ∃! side, (duplex side).responder = true) := by
  obtain ⟨winner, decided⟩ := exists_decided meeting
  obtain ⟨wins, loses, winsBound, losesBound, count, rfl⟩ := decided.run runs
  refine ⟨by omega, fun stuck => ?_⟩
  obtain ⟨rfl, rfl⟩ := decided.stuck winsBound losesBound stuck
  refine ⟨fun side => ?_, !winner, ?_, fun side responds => ?_⟩
  · rcases Bool.eq_or_eq_not side winner with rfl | rfl
    · rw [placed_winner]
      rfl
    · rw [placed_loser, Bool.not_not]
      rfl
  · show (placed initiators winner 5 5 (!winner)).responder = true
    rw [placed_loser]
    rfl
  · refine Bool.eq_not_of_ne fun same => ?_
    rw [same, placed_winner] at responds
    exact nomatch responds

end Runs

/-- Keys `1` and `2` call `initiate` for each other; key `2` has the greater challenge. -/
def bothCall (side : Bool) : Initiator := if side then bob else alice

/-- An order in which both send before either receives. -/
def crossing : List (Bool × DuplexAction) :=
  [(false, .start), (true, .start), (true, .send), (false, .send), (true, .receive), (false, .receive),
    (false, .send), (true, .receive), (true, .send), (false, .receive)]

theorem simultaneous_open_resolves_crossing : letI := shownKeys
    letI := lastBytes
    ∃ duplex, Duplex.run bothCall crossing = some duplex ∧
      (∀ side, (duplex side).returned = some (.ok (bothCall !side).key.peerId)) ∧
        ∃! side, (duplex side).responder = true := by
  let _ := shownKeys
  let _ := lastBytes
  have honest : ∀ key, Signed.Honest (signerOf key) := fun key => ⟨rfl, fun bytes => beq_self_eq_true _⟩
  have meeting : Meeting (bothCall false) (bothCall true) :=
    ⟨honest 1, honest 2, by decide, Or.inl rfl, Or.inl rfl, by decide⟩
  have ends : ∃ duplex, Duplex.run bothCall crossing = some duplex ∧
      ∀ side action, duplex.step bothCall (side, action) = none := by
    refine ⟨placed bothCall true 5 5, by decide +kernel, fun side action => ?_⟩
    cases side <;> cases action <;> decide +kernel
  obtain ⟨duplex, runs, stuck⟩ := ends
  exact ⟨duplex, runs, (simultaneous_open_resolves bothCall meeting crossing duplex runs).2
    fun event => stuck event.1 event.2⟩

end Subduction
