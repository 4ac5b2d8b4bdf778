/-
**The handler of ephemeral messages.**

A message that a relay brings is checked for its size and its age and looked up among the nonces seen
before its signature is verified. What verifies claims its nonce; what claims it first is delivered to
the application and sent on to the other subscribers of its topic. A message that the node publishes
claims its nonce as well.

* **`recvClaim_frame`**, **`publishClaim_frame`** — beside the cache only the queue and the send slots
  change, and a nonce that was seen ends the call.
-/

import Subduction.Ephemeral.NonceCache
import Subduction.Lib.MultiMap

set_option linter.unusedSectionVars false

namespace Subduction

/-! ### State -/

/-- A received message as the application sees it. -/
structure EphemeralEvent where
  id : Topic
  sender : PeerId
  nonce : UInt64
  payload : List UInt8
deriving DecidableEq

structure EphemeralConfig where
  maxPayloadSize : Nat
  channelCapacity : Nat
  nonceWindowDuration : Duration
  maxMessageAge : Duration

/-- `EphemeralConfig::default`. -/
def EphemeralConfig.default : EphemeralConfig where
  maxPayloadSize := 65536
  channelCapacity := 1024
  nonceWindowDuration := .fromSecs 30
  maxMessageAge := .fromSecs 30

/-- Who may subscribe and publish, and to whom a message may be forwarded. -/
structure EphemeralPolicy where
  authorizeSubscribe : PeerId → Topic → Bool
  authorizePublish : PeerId → Topic → Bool
  filterAuthorizedSubscribers : Topic → List PeerId → List PeerId

/-- `OpenEphemeralPolicy`. -/
def EphemeralPolicy.open : EphemeralPolicy := ⟨fun _ _ => true, fun _ _ => true, fun _ peers => peers⟩

/-- A connection: the peer, and which of the connections to it. -/
abbrev EphemeralConn := PeerId × Nat

/-- `MAX_INFLIGHT_EPHEMERAL_SENDS_PER_PEER`. -/
def maxInflightEphemeralSendsPerPeer : Nat := 64

/-- **The state of the handler**: the peers subscribed to a topic here, the topics this node wants, the
number of connections to every peer, the events the application has not taken, the nonces, and the
unfinished sends to every peer. -/
structure EphemeralHandler where
  ephemeralSubscriptions : MultiMap Topic PeerId
  outgoingSubscriptions : Finset Topic
  connections : FinMap PeerId Nat
  callback : List EphemeralEvent
  channelCapacity : Nat
  maxPayloadSize : Nat
  maxMessageAge : Duration
  nonceCache : EphemeralNonceCache
  inflightSends : FinMap PeerId Nat

/-- A message and the connections it is sent over. -/
structure EphemeralFanOut where
  message : EphemeralMessage
  targets : List EphemeralConn

/-- What a call gives: an event for the application, a fan-out, and control messages. -/
structure EphemeralOutput where
  event : Option EphemeralEvent := none
  fanOut : Option EphemeralFanOut := none
  sends : List (EphemeralConn × EphemeralMessage) := []

/-- What a call gives names the message. -/
structure EphemeralOutput.IsOf (output : EphemeralOutput) (signed : Signed EphemeralPayload)
    (id : Topic) (nonce : UInt64) : Prop where
  event : ∀ event ∈ output.event, event.sender = signed.issuer.peerId ∧ event.id = id ∧ event.nonce = nonce
  fanOut : ∀ fanOut ∈ output.fanOut, fanOut.message = .ephemeral signed
  sends : output.sends = []

theorem EphemeralOutput.IsOf.none {signed : Signed EphemeralPayload} {id : Topic} {nonce : UInt64} :
    ({} : EphemeralOutput).IsOf signed id nonce :=
  ⟨fun _ given => (nomatch given), fun _ given => (nomatch given), rfl⟩

namespace EphemeralHandler

/-- `EphemeralHandler::new`. -/
def new (connections : FinMap PeerId Nat) (config : EphemeralConfig) : EphemeralHandler where
  ephemeralSubscriptions := ∅
  outgoingSubscriptions := ∅
  connections := connections
  callback := []
  channelCapacity := config.channelCapacity
  maxPayloadSize := config.maxPayloadSize
  maxMessageAge := config.maxMessageAge
  nonceCache := .new config.nonceWindowDuration
  inflightSends := ∅

/-! ### Fan-out -/

def connsOf (handler : EphemeralHandler) (peer : PeerId) : List EphemeralConn :=
  (List.range ((handler.connections.get? peer).getD 0)).map fun index => (peer, index)

/-- `InflightGuard::admit` for one connection after the other. -/
def admitTargets : FinMap PeerId Nat → List EphemeralConn → FinMap PeerId Nat × List EphemeralConn
  | inflight, [] => (inflight, [])
  | inflight, conn :: targets =>
    if (inflight.get? conn.1).getD 0 < maxInflightEphemeralSendsPerPeer then
      ((admitTargets (inflight.insert conn.1 ((inflight.get? conn.1).getD 0 + 1)) targets).1,
        conn :: (admitTargets (inflight.insert conn.1 ((inflight.get? conn.1).getD 0 + 1)) targets).2)
    else admitTargets inflight targets

/-- `EphemeralHandler::admit_fan_out`. -/
def admitFanOut (handler : EphemeralHandler) (message : EphemeralMessage) (targets : List EphemeralConn) :
    EphemeralHandler × Option EphemeralFanOut :=
  ({ handler with inflightSends := (admitTargets handler.inflightSends targets).1 },
    if (admitTargets handler.inflightSends targets).2 = [] then none
    else some ⟨message, (admitTargets handler.inflightSends targets).2⟩)

/-- A send is finished and its guard dropped. -/
def releaseSend (handler : EphemeralHandler) (peer : PeerId) : EphemeralHandler :=
  { handler with inflightSends := handler.inflightSends.modify peer fun count => count - 1 }

/-- `callback_tx.try_send`. -/
def trySend (handler : EphemeralHandler) (event : EphemeralEvent) :
    EphemeralHandler × Option EphemeralEvent :=
  if handler.callback.length < handler.channelCapacity then
    ({ handler with callback := handler.callback ++ [event] }, some event)
  else (handler, none)

def takeEvent (handler : EphemeralHandler) : EphemeralHandler :=
  { handler with callback := handler.callback.tail }

/-- What `check_and_insert` answers. -/
def isNewNonce (handler : EphemeralHandler) (sender : PeerId) (id : Topic) (nonce : UInt64)
    (now : TimestampSeconds) : Bool :=
  (handler.nonceCache.checkAndInsert sender id nonce now).2

/-- `check_and_insert` on the cache of the handler. -/
def claimNonce (handler : EphemeralHandler) (sender : PeerId) (id : Topic) (nonce : UInt64)
    (now : TimestampSeconds) : EphemeralHandler :=
  { handler with nonceCache := (handler.nonceCache.checkAndInsert sender id nonce now).1 }

/-! ### Receiving -/

variable [Bijou64Codec]

/-- The header is decoded, and the size and the age are checked. -/
def recvHeader (handler : EphemeralHandler) (signed : Signed EphemeralPayload) (now : TimestampSeconds) :
    Option EphemeralPayloadHeader :=
  match EphemeralPayloadHeader.tryDecode signed.fieldsBytes with
  | .error _ => none
  | .ok header =>
    if handler.maxPayloadSize < header.payloadLen then none
    else if handler.maxMessageAge.nanos < (now.absDiff header.timestamp).nanos then none
    else some header

/-- `recv_ephemeral` up to the verified signature; it reads only. -/
def recvProbe [Ed25519] (handler : EphemeralHandler) (signed : Signed EphemeralPayload)
    (now : TimestampSeconds) : Option (VerifiedSignature EphemeralPayload) :=
  match handler.recvHeader signed now with
  | none => none
  | some header =>
    if handler.nonceCache.contains signed.issuer.peerId header.id header.nonce then none
    else signed.tryVerify.toOption

variable [IterOrder PeerId]

/-- The subscribers of the topic apart from the relay and the originator. -/
def otherSubscribers (handler : EphemeralHandler) (id : Topic) (relay sender : PeerId) : List PeerId :=
  (IterOrder.list (handler.ephemeralSubscriptions.members id)).filter fun peer =>
    peer ≠ relay ∧ peer ≠ sender

def forward (handler : EphemeralHandler) (policy : EphemeralPolicy) (relay : PeerId)
    (signed : Signed EphemeralPayload) (id : Topic) : EphemeralHandler × Option EphemeralFanOut :=
  if handler.otherSubscribers id relay signed.issuer.peerId = [] then (handler, none)
  else handler.admitFanOut (.ephemeral signed) ((policy.filterAuthorizedSubscribers id
      (handler.otherSubscribers id relay signed.issuer.peerId)).flatMap handler.connsOf)

/-- `recv_ephemeral` after the nonce was claimed: authorization, delivery and fan-out. -/
def recvAccept (handler : EphemeralHandler) (policy : EphemeralPolicy) (relay : PeerId)
    (signed : Signed EphemeralPayload) (payload : EphemeralPayload) : EphemeralHandler × EphemeralOutput :=
  if policy.authorizePublish signed.issuer.peerId payload.id then
    let delivered :=
      handler.trySend ⟨payload.id, signed.issuer.peerId, payload.nonce, payload.payload⟩
    let forwarded := delivered.1.forward policy relay signed payload.id
    (forwarded.1, ⟨delivered.2, forwarded.2, []⟩)
  else (handler, {})

/-- `recv_ephemeral` from the claim of the nonce on, with the time that was read at its start. -/
def recvClaim (handler : EphemeralHandler) (policy : EphemeralPolicy) (relay : PeerId)
    (signed : Signed EphemeralPayload) (payload : EphemeralPayload) (now : TimestampSeconds) :
    EphemeralHandler × EphemeralOutput :=
  if handler.isNewNonce signed.issuer.peerId payload.id payload.nonce now then
    (handler.claimNonce signed.issuer.peerId payload.id payload.nonce now).recvAccept policy relay
      signed payload
  else (handler.claimNonce signed.issuer.peerId payload.id payload.nonce now, {})

/-- `EphemeralHandler::recv_ephemeral`. -/
def recvEphemeral [Ed25519] (handler : EphemeralHandler) (policy : EphemeralPolicy) (relay : PeerId)
    (signed : Signed EphemeralPayload) (now : TimestampSeconds) : EphemeralHandler × EphemeralOutput :=
  match handler.recvProbe signed now with
  | none => (handler, {})
  | some verified => handler.recvClaim policy relay signed verified.payload now

/-- `EphemeralHandler::recv_subscribe`. -/
def recvSubscribe (handler : EphemeralHandler) (policy : EphemeralPolicy) (conn : EphemeralConn)
    (topics : NonEmpty Topic) : EphemeralHandler × EphemeralOutput :=
  let authorized := topics.toList.filter fun topic => policy.authorizeSubscribe conn.1 topic
  let rejected := topics.toList.filter fun topic => !policy.authorizeSubscribe conn.1 topic
  ({ handler with ephemeralSubscriptions := authorized.foldl (fun subscriptions topic =>
      subscriptions.add topic conn.1) handler.ephemeralSubscriptions },
    { sends := (NonEmpty.fromVec rejected).toList.map fun topics => (conn, .subscribeRejected topics) })

/-- `EphemeralHandler::recv_unsubscribe`. -/
def recvUnsubscribe (handler : EphemeralHandler) (peer : PeerId) (topics : NonEmpty Topic) :
    EphemeralHandler :=
  { handler with ephemeralSubscriptions := topics.toList.foldl (fun subscriptions topic =>
      subscriptions.remove topic peer) handler.ephemeralSubscriptions }

/-- `EphemeralHandler::dispatch`. -/
def dispatch [Ed25519] (handler : EphemeralHandler) (policy : EphemeralPolicy) (conn : EphemeralConn)
    (message : EphemeralMessage) (now : TimestampSeconds) : EphemeralHandler × EphemeralOutput :=
  match message with
  | .ephemeral signed => handler.recvEphemeral policy conn.1 signed now
  | .subscribe topics => handler.recvSubscribe policy conn topics
  | .unsubscribe topics => (handler.recvUnsubscribe conn.1 topics, {})
  | .subscribeRejected _ => (handler, {})

section

variable (handler : EphemeralHandler)

/-- `EphemeralHandler::on_peer_disconnect`. -/
def onPeerDisconnect (peer : PeerId) : EphemeralHandler :=
  { handler with
    ephemeralSubscriptions := handler.ephemeralSubscriptions.removeMember peer
    nonceCache := handler.nonceCache.removePeer peer
    inflightSends := handler.inflightSends.erase peer }

/-! ### Publishing and subscribing -/

/-- The peers a published message is for: the subscribers, and with an outgoing subscription everyone
who is connected. -/
def targetPeers (id : Topic) : Finset PeerId :=
  handler.ephemeralSubscriptions.members id ∪
    if id ∈ handler.outgoingSubscriptions then handler.connections.keys else ∅

variable (policy : EphemeralPolicy)

def publishFanOut (signed : Signed EphemeralPayload) (id : Topic) : EphemeralHandler × Option EphemeralFanOut :=
  let authorized := policy.filterAuthorizedSubscribers id (IterOrder.list (handler.targetPeers id))
  if handler.targetPeers id = ∅ then (handler, none)
  else if authorized = [] then (handler, none)
  else handler.admitFanOut (.ephemeral signed) (authorized.flatMap handler.connsOf)

/-- `publish` from the claim of the nonce on. -/
def publishClaim (signed : Signed EphemeralPayload) (header : EphemeralPayloadHeader) (now : TimestampSeconds) :
    EphemeralHandler × EphemeralOutput :=
  if handler.isNewNonce signed.issuer.peerId header.id header.nonce now then
    let sent := (handler.claimNonce signed.issuer.peerId header.id header.nonce now).publishFanOut
      policy signed header.id
    (sent.1, { fanOut := sent.2 })
  else (handler.claimNonce signed.issuer.peerId header.id header.nonce now, {})

/-- `EphemeralHandler::publish` of a signed payload. -/
def publishSigned (signed : Signed EphemeralPayload) (now : TimestampSeconds) : EphemeralHandler × EphemeralOutput :=
  match EphemeralPayloadHeader.tryDecode signed.fieldsBytes with
  | .error _ => (handler, {})
  | .ok header =>
    if handler.maxPayloadSize < header.payloadLen then (handler, {})
    else handler.publishClaim policy signed header now

/-- `EphemeralHandler::publish`. -/
def publish (message : EphemeralMessage)
    (now : TimestampSeconds) : EphemeralHandler × EphemeralOutput :=
  match message with
  | .ephemeral signed => handler.publishSigned policy signed now
  | _ => (handler, {})

/-- `EphemeralHandler::send_to_all_peers`. -/
def sendToAllPeers (message : EphemeralMessage) : List (EphemeralConn × EphemeralMessage) :=
  ((IterOrder.list handler.connections.keys).flatMap handler.connsOf).map fun conn => (conn, message)

/-- `EphemeralHandler::subscribe`. -/
def subscribe (topics : NonEmpty Topic) : EphemeralHandler × EphemeralOutput :=
  ({ handler with outgoingSubscriptions := handler.outgoingSubscriptions ∪ topics.toList.toFinset },
    { sends := handler.sendToAllPeers (.subscribe topics) })

/-- `EphemeralHandler::unsubscribe`. -/
def unsubscribe (topics : NonEmpty Topic) : EphemeralHandler × EphemeralOutput :=
  ({ handler with outgoingSubscriptions := handler.outgoingSubscriptions \ topics.toList.toFinset },
    { sends := handler.sendToAllPeers (.unsubscribe topics) })

end

/-- `EphemeralHandler::subscribe_peer`. -/
def subscribePeer [IterOrder Topic] (handler : EphemeralHandler) (peer : PeerId) : EphemeralOutput :=
  match NonEmpty.fromVec (IterOrder.list handler.outgoingSubscriptions) with
  | none => {}
  | some topics => { sends := (handler.connsOf peer).map fun conn => (conn, .subscribe topics) }

/-! ### What the calls leave as it was -/

section Frame

variable {handler : EphemeralHandler} {policy : EphemeralPolicy} {relay : PeerId}
  {signed : Signed EphemeralPayload} {payload : EphemeralPayload} {now : TimestampSeconds} {id : Topic}

theorem message_admitFanOut {message : EphemeralMessage} {targets : List EphemeralConn} :
    ∀ fanOut ∈ (handler.admitFanOut message targets).2, fanOut.message = message := by
  intro fanOut given
  unfold admitFanOut at given
  split at given
  · cases given
  · rw [← Option.some.inj given]

theorem forward_frame (handler : EphemeralHandler) (policy : EphemeralPolicy) (relay : PeerId)
    (signed : Signed EphemeralPayload) (id : Topic) :
    ∃ inflightSends, (handler.forward policy relay signed id).1 = { handler with inflightSends } ∧
      ∀ fanOut ∈ (handler.forward policy relay signed id).2, fanOut.message = .ephemeral signed := by
  unfold forward
  split
  · exact ⟨handler.inflightSends, rfl, fun _ given => nomatch given⟩
  · exact ⟨_, rfl, message_admitFanOut⟩

theorem trySend_frame (handler : EphemeralHandler) (event : EphemeralEvent) :
    ∃ callback, (handler.trySend event).1 = { handler with callback } ∧
      ∀ sent ∈ (handler.trySend event).2, sent = event := by
  unfold trySend
  split
  · exact ⟨_, rfl, fun sent given => (Option.some.inj given).symm⟩
  · exact ⟨handler.callback, rfl, fun _ given => nomatch given⟩

theorem recvAccept_frame : ∃ callback inflightSends,
      (handler.recvAccept policy relay signed payload).1 = { handler with callback, inflightSends } ∧
      (handler.recvAccept policy relay signed payload).2.IsOf signed payload.id payload.nonce := by
  unfold recvAccept
  split
  · dsimp only
    obtain ⟨callback, isDelivered, isEvent⟩ := handler.trySend_frame
      ⟨payload.id, signed.issuer.peerId, payload.nonce, payload.payload⟩
    rw [isDelivered]
    obtain ⟨inflightSends, isForwarded, isMessage⟩ :=
      { handler with callback }.forward_frame policy relay signed payload.id
    refine ⟨callback, inflightSends, isForwarded, fun event given => ?_, isMessage, rfl⟩
    rw [isEvent event given]
    exact ⟨rfl, rfl, rfl⟩
  · exact ⟨_, _, rfl, .none⟩

theorem publishFanOut_frame (handler : EphemeralHandler) (policy : EphemeralPolicy)
    (signed : Signed EphemeralPayload) (id : Topic) :
    ∃ inflightSends, (handler.publishFanOut policy signed id).1 = { handler with inflightSends } ∧
      ∀ fanOut ∈ (handler.publishFanOut policy signed id).2, fanOut.message = .ephemeral signed := by
  unfold publishFanOut
  dsimp only
  split
  · exact ⟨handler.inflightSends, rfl, fun _ given => nomatch given⟩
  · split
    · exact ⟨handler.inflightSends, rfl, fun _ given => nomatch given⟩
    · exact ⟨_, rfl, message_admitFanOut⟩

theorem recvClaim_of_new (isNew : handler.isNewNonce signed.issuer.peerId payload.id payload.nonce now = true) :
    handler.recvClaim policy relay signed payload now =
      (handler.claimNonce signed.issuer.peerId payload.id payload.nonce now).recvAccept policy relay
        signed payload :=
  if_pos isNew

theorem recvClaim_of_seen (seen : handler.isNewNonce signed.issuer.peerId payload.id payload.nonce now = false) :
    handler.recvClaim policy relay signed payload now =
      (handler.claimNonce signed.issuer.peerId payload.id payload.nonce now, {}) :=
  if_neg (Bool.not_eq_true _ ▸ seen)

theorem recvClaim_frame (handler : EphemeralHandler) (policy : EphemeralPolicy) (relay : PeerId)
    (signed : Signed EphemeralPayload) (payload : EphemeralPayload) (now : TimestampSeconds) :
    ∃ callback inflightSends, (handler.recvClaim policy relay signed payload now).1 =
        { handler.claimNonce signed.issuer.peerId payload.id payload.nonce now with
          callback, inflightSends } ∧
      (handler.recvClaim policy relay signed payload now).2.IsOf signed payload.id payload.nonce := by
  cases answer : handler.isNewNonce signed.issuer.peerId payload.id payload.nonce now with
  | false =>
    rw [recvClaim_of_seen answer]
    exact ⟨handler.callback, handler.inflightSends, rfl, .none⟩
  | true =>
    rw [recvClaim_of_new answer]
    exact recvAccept_frame

theorem publishClaim_of_new {header : EphemeralPayloadHeader}
    (isNew : handler.isNewNonce signed.issuer.peerId header.id header.nonce now = true) :
    handler.publishClaim policy signed header now =
      (((handler.claimNonce signed.issuer.peerId header.id header.nonce now).publishFanOut policy signed
          header.id).1,
        { fanOut := ((handler.claimNonce signed.issuer.peerId header.id header.nonce now).publishFanOut
          policy signed header.id).2 }) :=
  if_pos isNew

theorem publishClaim_of_seen {header : EphemeralPayloadHeader}
    (seen : handler.isNewNonce signed.issuer.peerId header.id header.nonce now = false) :
    handler.publishClaim policy signed header now =
      (handler.claimNonce signed.issuer.peerId header.id header.nonce now, {}) :=
  if_neg (Bool.not_eq_true _ ▸ seen)

theorem publishClaim_frame (handler : EphemeralHandler) (policy : EphemeralPolicy)
    (signed : Signed EphemeralPayload) (header : EphemeralPayloadHeader) (now : TimestampSeconds) :
    ∃ inflightSends, (handler.publishClaim policy signed header now).1 =
        { handler.claimNonce signed.issuer.peerId header.id header.nonce now with inflightSends } ∧
      (handler.publishClaim policy signed header now).2.IsOf signed header.id header.nonce ∧
      (handler.publishClaim policy signed header now).2.event = none := by
  cases answer : handler.isNewNonce signed.issuer.peerId header.id header.nonce now with
  | false =>
    rw [publishClaim_of_seen answer]
    exact ⟨handler.inflightSends, rfl, .none, rfl⟩
  | true =>
    rw [publishClaim_of_new answer]
    obtain ⟨inflightSends, isNext, isMessage⟩ :=
      (handler.claimNonce signed.issuer.peerId header.id header.nonce now).publishFanOut_frame policy
        signed header.id
    exact ⟨inflightSends, isNext, ⟨fun _ given => (nomatch given), isMessage, rfl⟩, rfl⟩

end Frame


end EphemeralHandler

end Subduction
