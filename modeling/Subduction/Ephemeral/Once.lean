/-
**Ephemeral messages are delivered at most once, while the cache remembers them.**

A handler takes calls one after the other: messages of any relay, publishes, subscriptions, departures
of peers. A nonce that was claimed stays in the cache for a window after the claim, unless its issuer
departs. What can be accepted again is a message that still passes the age check after that: one that
was stamped in the future, or one whose issuer has departed.

* `EphemeralEffect`, **`step_effect`** — what a call does to the cache, and what it gives.
* **`delivered_at_most_once`**.
-/

import Subduction.Ephemeral.Handler

set_option linter.unusedSectionVars false

namespace Subduction

open EphemeralNonceCache List Option

/-! ### Runs -/

/-- What messages are told apart by. -/
structure EphemeralKey where
  issuer : PeerId
  id : Topic
  nonce : UInt64
deriving DecidableEq

/-- What happens to a handler. The connections are shared and change elsewhere. -/
inductive EphemeralInput where
  | handle (conn : EphemeralConn) (message : EphemeralMessage)
  | publish (message : EphemeralMessage)
  | subscribe (topics : NonEmpty Topic)
  | unsubscribe (topics : NonEmpty Topic)
  | subscribePeer (peer : PeerId)
  | peerDisconnected (peer : PeerId)
  | connectionsChanged (connections : FinMap PeerId Nat)
  | sendFinished (peer : PeerId)
  | eventTaken

/-- A call, with the time and what the policy answers during it. -/
structure EphemeralCall where
  now : TimestampSeconds
  policy : EphemeralPolicy
  input : EphemeralInput

section Run

variable [Bijou64Codec]

/-- The key of a message, from its unverified header. -/
def EphemeralMessage.key? : EphemeralMessage → Option EphemeralKey
  | .ephemeral signed => (EphemeralPayloadHeader.tryDecode signed.fieldsBytes).toOption.map fun header =>
    ⟨signed.issuer.peerId, header.id, header.nonce⟩
  | _ => none

/-- The key of the event that a call gave. -/
def EphemeralOutput.eventKey? (output : EphemeralOutput) : Option EphemeralKey :=
  output.event.map fun event => ⟨event.sender, event.id, event.nonce⟩

def EphemeralOutput.fanOutKey? (output : EphemeralOutput) : Option EphemeralKey :=
  output.fanOut.bind fun fanOut => fanOut.message.key?

namespace EphemeralHandler

variable [Ed25519] [IterOrder PeerId] [IterOrder Topic]

def step (handler : EphemeralHandler) (call : EphemeralCall) : EphemeralHandler × EphemeralOutput :=
  match call.input with
  | .handle conn message => handler.dispatch call.policy conn message call.now
  | .publish message => handler.publish call.policy message call.now
  | .subscribe topics => handler.subscribe topics
  | .unsubscribe topics => handler.unsubscribe topics
  | .subscribePeer peer => (handler, handler.subscribePeer peer)
  | .peerDisconnected peer => (handler.onPeerDisconnect peer, {})
  | .connectionsChanged connections => ({ handler with connections }, {})
  | .sendFinished peer => (handler.releaseSend peer, {})
  | .eventTaken => (handler.takeEvent, {})

/-- The calls of a run, each with the handler it finds. -/
def trace (handler : EphemeralHandler) : List EphemeralCall → List (EphemeralHandler × EphemeralCall)
  | [] => []
  | call :: calls => (handler, call) :: (handler.step call).1.trace calls

def run (handler : EphemeralHandler) (calls : List EphemeralCall) : EphemeralHandler :=
  calls.foldl (fun handler call => (handler.step call).1) handler

/-- What the calls of a run give. -/
def outputs (handler : EphemeralHandler) (calls : List EphemeralCall) : List EphemeralOutput :=
  (handler.trace calls).map fun entry => (entry.1.step entry.2).2

/-- The key of a message that arrives valid: of fitting size, and if it is received, of a fresh stamp and
with a valid signature. -/
def arrival (handler : EphemeralHandler) (call : EphemeralCall) : Option EphemeralKey :=
  match call.input with
  | .handle _ (.ephemeral signed) => (handler.recvHeader signed call.now).bind fun header =>
    signed.tryVerify.toOption.map fun _ => ⟨signed.issuer.peerId, header.id, header.nonce⟩
  | .publish (.ephemeral signed) =>
    (EphemeralPayloadHeader.tryDecode signed.fieldsBytes).toOption.bind fun header =>
      if handler.maxPayloadSize < header.payloadLen then none
      else some ⟨signed.issuer.peerId, header.id, header.nonce⟩
  | _ => none

/-- The key that a call asks the cache for: that of what is published, or of what passes the probe. -/
def attempt (handler : EphemeralHandler) (call : EphemeralCall) : Option EphemeralKey :=
  match call.input with
  | .handle _ (.ephemeral signed) => (handler.recvProbe signed call.now).map fun verified =>
    ⟨signed.issuer.peerId, verified.payload.id, verified.payload.nonce⟩
  | .publish (.ephemeral _) => handler.arrival call
  | _ => none

/-- The key that a call claims. -/
def claimed (handler : EphemeralHandler) (call : EphemeralCall) : Option EphemeralKey :=
  (handler.attempt call).filter fun key =>
    handler.isNewNonce key.issuer key.id key.nonce call.now

/-- The key of a message that a call publishes. -/
def published (handler : EphemeralHandler) (call : EphemeralCall) : Option EphemeralKey :=
  match call.input with
  | .publish _ => handler.claimed call
  | _ => none

end EphemeralHandler

end Run

/-! ### What a call does -/

section Effect

variable [Bijou64Codec] [Ed25519] [IterOrder PeerId] [IterOrder Topic] {handler : EphemeralHandler}
  {call : EphemeralCall} {key : EphemeralKey}

open EphemeralHandler

/-- **What a call can do**: leave the cache, forget a peer that departs, or ask the cache for a key; only
what is accepted gives an event or a fan-out, under that key, and only what was received an event. -/
inductive EphemeralEffect (handler : EphemeralHandler) (call : EphemeralCall) : Prop where
  | quiet (attempts : handler.attempt call = none)
      (cache : (handler.step call).1.nonceCache = handler.nonceCache)
      (noEvent : (handler.step call).2.event = none) (noFanOut : (handler.step call).2.fanOut = none)
  | forgot (peer : PeerId) (departs : call.input = .peerDisconnected peer)
      (attempts : handler.attempt call = none)
      (cache : (handler.step call).1.nonceCache = handler.nonceCache.removePeer peer)
      (noEvent : (handler.step call).2.event = none) (noFanOut : (handler.step call).2.fanOut = none)
  | asked (key : EphemeralKey) (attempts : handler.attempt call = some key)
      (arrives : handler.arrival call = some key)
      (cache : (handler.step call).1.nonceCache =
        (handler.nonceCache.checkAndInsert key.issuer key.id key.nonce call.now).1)
      (event : ∀ other ∈ (handler.step call).2.eventKey?, other = key ∧ handler.claimed call = some key ∧
        handler.published call = none)
      (fanOut : ∀ other ∈ (handler.step call).2.fanOutKey?, other = key ∧ handler.claimed call = some key)

variable {signed : Signed EphemeralPayload} {now : TimestampSeconds} {other : EphemeralKey}

theorem recvHeader_eq_some
    {header : EphemeralPayloadHeader} (passes : handler.recvHeader signed now = some header) :
    EphemeralPayloadHeader.tryDecode signed.fieldsBytes = .ok header := by
  unfold recvHeader at passes
  split at passes
  · cases passes
  · rename_i decoded isDecoded
    split at passes
    · cases passes
    · split at passes
      · cases passes
      · rw [isDecoded, Option.some.inj passes]

theorem recvProbe_eq_some
    {verified : VerifiedSignature EphemeralPayload} (passes : handler.recvProbe signed now = some verified) :
    handler.recvHeader signed now = some verified.payload.header ∧ signed.tryVerify = .ok verified := by
  unfold recvProbe at passes
  split at passes
  · cases passes
  · rename_i header isHeader
    split at passes
    · cases passes
    · have verifies : signed.tryVerify = .ok verified := by
        cases isVerified : signed.tryVerify with
        | error error =>
          rw [isVerified] at passes
          cases passes
        | ok other =>
          rw [isVerified] at passes
          exact congrArg Except.ok (Option.some.inj passes)
      have sameHeader := (recvHeader_eq_some isHeader).symm.trans (header_of_tryVerify verifies)
      refine ⟨?_, verifies⟩
      rw [isHeader, Except.ok.inj sameHeader]

theorem claimed_of_attempt (attempts : handler.attempt call = some key)
    (accepted : handler.isNewNonce key.issuer key.id key.nonce call.now = true) :
    handler.claimed call = some key :=
  filter_eq_some_iff.mpr ⟨attempts, accepted⟩

theorem eventKey?_of_isOf {output : EphemeralOutput} {id : Topic}
    {nonce : UInt64} (isOf : output.IsOf signed id nonce)
    (given : other ∈ output.eventKey?) : other = ⟨signed.issuer.peerId, id, nonce⟩ := by
  obtain ⟨event, isEvent, rfl⟩ := map_eq_some_iff.mp given
  obtain ⟨sender, topic, number⟩ := isOf.event event isEvent
  rw [sender, topic, number]

theorem fanOutKey?_of_isOf {output : EphemeralOutput}
    {header : EphemeralPayloadHeader} (isOf : output.IsOf signed header.id header.nonce)
    (decoded : EphemeralPayloadHeader.tryDecode signed.fieldsBytes = .ok header)
    (given : other ∈ output.fanOutKey?) : other = ⟨signed.issuer.peerId, header.id, header.nonce⟩ := by
  obtain ⟨fanOut, isFanOut, isKey⟩ := bind_eq_some_iff.mp given
  rw [isOf.fanOut fanOut isFanOut, EphemeralMessage.key?, decoded] at isKey
  exact (Option.some.inj isKey).symm

theorem EphemeralEffect.of_claim (header : EphemeralPayloadHeader)
    {handler : EphemeralHandler} {call : EphemeralCall}
    (attempts : handler.attempt call = some ⟨signed.issuer.peerId, header.id, header.nonce⟩)
    (arrives : handler.arrival call = some ⟨signed.issuer.peerId, header.id, header.nonce⟩)
    (decoded : EphemeralPayloadHeader.tryDecode signed.fieldsBytes = .ok header)
    (cache : (handler.step call).1.nonceCache =
      (handler.nonceCache.checkAndInsert signed.issuer.peerId header.id header.nonce call.now).1)
    (isOf : (handler.step call).2.IsOf signed header.id header.nonce)
    (published : (handler.step call).2.event ≠ none → handler.published call = none)
    (refused : handler.isNewNonce signed.issuer.peerId header.id header.nonce call.now = false →
      (handler.step call).2 = {}) : EphemeralEffect handler call := by
  have accepted : (handler.step call).2 ≠ {} →
      handler.claimed call = some ⟨signed.issuer.peerId, header.id, header.nonce⟩ :=
    fun gives => claimed_of_attempt attempts (Bool.not_eq_false _ ▸ fun isFalse => gives (refused isFalse))
  refine .asked _ attempts arrives cache (fun other given => ?_) fun other given => ?_
  · refine ⟨eventKey?_of_isOf isOf given, accepted fun nothing => ?_, published fun nothing => ?_⟩
    · rw [nothing] at given
      cases given
    · rw [EphemeralOutput.eventKey?, nothing] at given
      cases given
  · refine ⟨fanOutKey?_of_isOf isOf decoded given, accepted fun nothing => ?_⟩
    rw [nothing] at given
    cases given

theorem recvEphemeral_effect {policy : EphemeralPolicy} {conn : EphemeralConn} :
    EphemeralEffect handler ⟨now, policy, .handle conn (.ephemeral signed)⟩ := by
  have isStep : handler.step ⟨now, policy, .handle conn (.ephemeral signed)⟩ =
      handler.recvEphemeral policy conn.1 signed now := rfl
  have isAttempt : handler.attempt ⟨now, policy, .handle conn (.ephemeral signed)⟩ =
      (handler.recvProbe signed now).map fun verified =>
        ⟨signed.issuer.peerId, verified.payload.id, verified.payload.nonce⟩ := rfl
  unfold recvEphemeral at isStep
  cases probe : handler.recvProbe signed now with
  | none =>
    rw [probe] at isStep isAttempt
    refine .quiet isAttempt ?_ ?_ ?_
    · rw [isStep]
    · rw [isStep]
    · rw [isStep]
  | some verified =>
    rw [probe] at isStep isAttempt
    obtain ⟨isHeader, verifies⟩ := recvProbe_eq_some probe
    obtain ⟨callback, inflightSends, isNext, isOf⟩ :=
      handler.recvClaim_frame policy conn.1 signed verified.payload now
    refine .of_claim verified.payload.header isAttempt ?_ (recvHeader_eq_some isHeader) ?_ ?_
      (fun _ => rfl) ?_
    · show (handler.recvHeader signed now).bind _ = _
      rw [isHeader, verifies]
      rfl
    · rw [isStep]
      exact congrArg EphemeralHandler.nonceCache isNext
    · rw [isStep]
      exact isOf
    · rw [isStep]
      exact fun seen => congrArg Prod.snd (recvClaim_of_seen seen)

theorem publish_effect {policy : EphemeralPolicy} :
    EphemeralEffect handler ⟨now, policy, .publish (.ephemeral signed)⟩ := by
  have isStep : handler.step ⟨now, policy, .publish (.ephemeral signed)⟩ =
      handler.publishSigned policy signed now := rfl
  have isArrival : handler.arrival ⟨now, policy, .publish (.ephemeral signed)⟩ =
      (EphemeralPayloadHeader.tryDecode signed.fieldsBytes).toOption.bind fun header =>
        if handler.maxPayloadSize < header.payloadLen then none
        else some ⟨signed.issuer.peerId, header.id, header.nonce⟩ := rfl
  unfold publishSigned at isStep
  cases decoded : EphemeralPayloadHeader.tryDecode signed.fieldsBytes with
  | error error =>
    rw [decoded] at isStep isArrival
    refine .quiet isArrival ?_ ?_ ?_
    · rw [isStep]
    · rw [isStep]
    · rw [isStep]
  | ok header =>
    rw [decoded] at isStep isArrival
    dsimp only [Except.toOption, bind_some] at isStep isArrival
    by_cases large : handler.maxPayloadSize < header.payloadLen
    · rw [if_pos large] at isStep isArrival
      refine .quiet isArrival ?_ ?_ ?_
      · rw [isStep]
      · rw [isStep]
      · rw [isStep]
    · rw [if_neg large] at isStep isArrival
      obtain ⟨inflightSends, isNext, isOf, noEvent⟩ :=
        handler.publishClaim_frame policy signed header now
      refine .of_claim header isArrival isArrival decoded ?_ ?_ ?_ ?_
      · rw [isStep]
        exact congrArg EphemeralHandler.nonceCache isNext
      · rw [isStep]
        exact isOf
      · rw [isStep]
        exact fun event => absurd noEvent event
      · rw [isStep]
        exact fun seen => congrArg Prod.snd (publishClaim_of_seen seen)

theorem step_effect (handler : EphemeralHandler) (call : EphemeralCall) : EphemeralEffect handler call := by
  obtain ⟨now, policy, input⟩ := call
  cases input with
  | handle conn message =>
    cases message with
    | ephemeral signed => exact recvEphemeral_effect
    | subscribe topics => exact .quiet rfl rfl rfl rfl
    | unsubscribe topics => exact .quiet rfl rfl rfl rfl
    | subscribeRejected topics => exact .quiet rfl rfl rfl rfl
  | publish message =>
    cases message with
    | ephemeral signed => exact publish_effect
    | subscribe topics => exact .quiet rfl rfl rfl rfl
    | unsubscribe topics => exact .quiet rfl rfl rfl rfl
    | subscribeRejected topics => exact .quiet rfl rfl rfl rfl
  | subscribe topics => exact .quiet rfl rfl rfl rfl
  | unsubscribe topics => exact .quiet rfl rfl rfl rfl
  | subscribePeer peer =>
    have silent : (handler.subscribePeer peer).event = none ∧ (handler.subscribePeer peer).fanOut = none := by
      unfold subscribePeer
      split
      · exact ⟨rfl, rfl⟩
      · exact ⟨rfl, rfl⟩
    exact .quiet rfl rfl silent.1 silent.2
  | peerDisconnected peer => exact .forgot peer rfl rfl rfl rfl rfl
  | connectionsChanged connections => exact .quiet rfl rfl rfl rfl
  | sendFinished peer => exact .quiet rfl rfl rfl rfl
  | eventTaken => exact .quiet rfl rfl rfl rfl

theorem step_settings (handler : EphemeralHandler) (call : EphemeralCall) :
    (handler.step call).1.maxPayloadSize = handler.maxPayloadSize ∧
      (handler.step call).1.maxMessageAge = handler.maxMessageAge := by
  obtain ⟨now, policy, input⟩ := call
  cases input with
  | handle conn message =>
    cases message with
    | ephemeral signed =>
      change (handler.recvEphemeral policy conn.1 signed now).1.maxPayloadSize = _ ∧
        (handler.recvEphemeral policy conn.1 signed now).1.maxMessageAge = _
      unfold recvEphemeral
      split
      · exact ⟨rfl, rfl⟩
      · rename_i verified _
        obtain ⟨_, _, isNext, _⟩ := handler.recvClaim_frame policy conn.1 signed verified.payload now
        rw [isNext]
        exact ⟨rfl, rfl⟩
    | subscribe topics => exact ⟨rfl, rfl⟩
    | unsubscribe topics => exact ⟨rfl, rfl⟩
    | subscribeRejected topics => exact ⟨rfl, rfl⟩
  | publish message =>
    cases message with
    | ephemeral signed =>
      change (handler.publishSigned policy signed now).1.maxPayloadSize = _ ∧
        (handler.publishSigned policy signed now).1.maxMessageAge = _
      unfold publishSigned
      split
      · exact ⟨rfl, rfl⟩
      · rename_i header _
        split
        · exact ⟨rfl, rfl⟩
        · obtain ⟨_, isNext, _⟩ := handler.publishClaim_frame policy signed header now
          rw [isNext]
          exact ⟨rfl, rfl⟩
    | subscribe topics => exact ⟨rfl, rfl⟩
    | unsubscribe topics => exact ⟨rfl, rfl⟩
    | subscribeRejected topics => exact ⟨rfl, rfl⟩
  | subscribe topics => exact ⟨rfl, rfl⟩
  | unsubscribe topics => exact ⟨rfl, rfl⟩
  | subscribePeer peer => exact ⟨rfl, rfl⟩
  | peerDisconnected peer => exact ⟨rfl, rfl⟩
  | connectionsChanged connections => exact ⟨rfl, rfl⟩
  | sendFinished peer => exact ⟨rfl, rfl⟩
  | eventTaken => exact ⟨rfl, rfl⟩

theorem arrival_step (handler : EphemeralHandler) (call other : EphemeralCall) :
    (handler.step call).1.arrival other = handler.arrival other := by
  obtain ⟨size, age⟩ := step_settings handler call
  unfold arrival recvHeader
  rw [size, age]

theorem windowDuration_step (handler : EphemeralHandler) (call : EphemeralCall) :
    (handler.step call).1.nonceCache.windowDuration = handler.nonceCache.windowDuration := by
  rcases step_effect handler call with ⟨_, cache⟩ | ⟨peer, _, _, cache⟩ | ⟨key, _, _, cache⟩
  · rw [cache]
  · rw [cache]
    exact windowDuration_removePeer
  · rw [cache, windowDuration_checkAndInsert]

theorem claimed_of_eventKey? (given : (handler.step call).2.eventKey? = some other) :
    handler.claimed call = some other ∧ handler.published call = none := by
  rcases step_effect handler call with ⟨_, _, noEvent⟩ | ⟨_, _, _, _, noEvent⟩ | ⟨key, _, _, _, event⟩
  · rw [EphemeralOutput.eventKey?, noEvent] at given
    cases given
  · rw [EphemeralOutput.eventKey?, noEvent] at given
    cases given
  · obtain ⟨rfl, claims, notPublished⟩ := event other given
    exact ⟨claims, notPublished⟩

theorem claimed_of_fanOutKey?
    (given : (handler.step call).2.fanOutKey? = some other) : handler.claimed call = some other := by
  rcases step_effect handler call with ⟨_, _, _, noFanOut⟩ | ⟨_, _, _, _, _, noFanOut⟩ | ⟨key, _, _, _, _, fanOut⟩
  · rw [EphemeralOutput.fanOutKey?, noFanOut] at given
    cases given
  · rw [EphemeralOutput.fanOutKey?, noFanOut] at given
    cases given
  · obtain ⟨rfl, claims⟩ := fanOut other given
    exact claims

theorem claimed_of_published (given : handler.published call = some other) :
    handler.claimed call = some other := by
  unfold published at given
  split at given
  · exact given
  · cases given

/-! ### What the cache of a handler keeps -/

/-- The cache of the handler keeps the key that was claimed at the time. -/
def EphemeralHandler.Keeps (handler : EphemeralHandler) (key : EphemeralKey) (time : TimestampSeconds) :
    Prop :=
  handler.nonceCache.Keeps key.issuer key.id key.nonce time

theorem behind_step (behind : handler.nonceCache.Behind call.now) :
    (handler.step call).1.nonceCache.Behind call.now := by
  rcases step_effect handler call with ⟨_, cache⟩ | ⟨peer, _, _, cache⟩ | ⟨key, _, _, cache⟩
  · rwa [cache]
  · rw [cache]
    exact behind.removePeer peer
  · rw [cache]
    exact behind.checkAndInsert

/-- **A call within the window keeps the key**, unless the issuer departs. -/
theorem keeps_step {time : TimestampSeconds} (keeps : handler.Keeps key time)
    (behind : handler.nonceCache.Behind call.now) (past : time.asSecs ≤ call.now.asSecs)
    (recent : (time.absDiff call.now).nanos ≤ handler.nonceCache.windowDuration.nanos)
    (stays : call.input ≠ .peerDisconnected key.issuer) : (handler.step call).1.Keeps key time := by
  unfold EphemeralHandler.Keeps at keeps ⊢
  rcases step_effect handler call with ⟨_, cache⟩ | ⟨peer, departs, _, cache⟩ | ⟨_, _, _, cache⟩
  · rwa [cache]
  · rw [cache]
    refine keeps.removePeer fun same => stays ?_
    rw [departs, same]
  · rw [cache]
    exact keeps.checkAndInsert behind past recent

theorem keeps_of_claimed (claims : handler.claimed call = some key)
    (behind : handler.nonceCache.Behind call.now) : (handler.step call).1.Keeps key call.now := by
  obtain ⟨attempts, accepted⟩ := filter_eq_some_iff.mp claims
  unfold EphemeralHandler.Keeps
  rcases step_effect handler call with ⟨noAttempt, _⟩ | ⟨_, _, noAttempt, _⟩ | ⟨other, isAttempt, _, cache⟩
  · exact absurd (noAttempt.symm.trans attempts) nofun
  · exact absurd (noAttempt.symm.trans attempts) nofun
  · obtain rfl := Option.some.inj (isAttempt.symm.trans attempts)
    rw [cache]
    exact keeps_of_accepted accepted behind

theorem not_claimed_of_keeps {time : TimestampSeconds} (keeps : handler.Keeps key time)
    (behind : handler.nonceCache.Behind call.now) (past : time.asSecs ≤ call.now.asSecs)
    (recent : (time.absDiff call.now).nanos ≤ handler.nonceCache.windowDuration.nanos) :
    handler.claimed call ≠ some key := by
  intro claims
  obtain ⟨_, accepted⟩ := filter_eq_some_iff.mp claims
  exact checkAndInsert_of_keeps keeps behind past recent accepted

theorem arrival_of_claimed (claims : handler.claimed call = some key) : handler.arrival call = some key := by
  obtain ⟨attempts, _⟩ := filter_eq_some_iff.mp claims
  rcases step_effect handler call with ⟨noAttempt, _⟩ | ⟨_, _, noAttempt, _⟩ | ⟨other, isAttempt, arrives, _⟩
  · exact absurd (noAttempt.symm.trans attempts) nofun
  · exact absurd (noAttempt.symm.trans attempts) nofun
  · rwa [← Option.some.inj (isAttempt.symm.trans attempts)]

end Effect

/-! ### Runs in which repetitions are prompt -/

section Prompt

variable [Bijou64Codec] [Ed25519] [IterOrder PeerId] [IterOrder Topic] {handler : EphemeralHandler}
  {calls : List EphemeralCall}

/-- **Repetitions are prompt**: two valid arrivals of one key lie at most a window apart, and the issuer
does not depart between them. -/
def EphemeralHandler.Prompt (handler : EphemeralHandler) (calls : List EphemeralCall) : Prop :=
  ∀ before first middle second after, calls = before ++ first :: (middle ++ second :: after) →
    ∀ key, handler.arrival first = some key → handler.arrival second = some key →
      (first.now.absDiff second.now).nanos ≤ handler.nonceCache.windowDuration.nanos ∧
        ∀ call ∈ middle, call.input ≠ .peerDisconnected key.issuer

def ClockForward (calls : List EphemeralCall) : Prop :=
  calls.Pairwise fun first second => first.now.asSecs ≤ second.now.asSecs

instance (calls : List EphemeralCall) : Decidable (ClockForward calls) :=
  inferInstanceAs (Decidable (List.Pairwise _ _))

theorem EphemeralHandler.Prompt.tail {call : EphemeralCall} (prompt : handler.Prompt (call :: calls)) :
    (handler.step call).1.Prompt calls := by
  intro before first middle second after isSplit key
  rw [arrival_step, arrival_step, windowDuration_step]
  refine prompt (call :: before) first middle second after ?_ key
  rw [isSplit]
  rfl

theorem mem_trace {entry : EphemeralHandler × EphemeralCall} (member : entry ∈ handler.trace calls) :
    ∃ before after, calls = before ++ entry.2 :: after ∧ entry.1 = handler.run before := by
  induction calls generalizing handler with
  | nil => cases member
  | cons call calls hypothesis =>
    rcases mem_cons.mp member with rfl | later
    · exact ⟨[], calls, rfl, rfl⟩
    · obtain ⟨before, after, isSplit, isRun⟩ := hypothesis later
      refine ⟨call :: before, after, ?_, isRun⟩
      rw [isSplit]
      rfl

theorem arrival_run (calls : List EphemeralCall) (call : EphemeralCall) :
    (handler.run calls).arrival call = handler.arrival call := by
  induction calls generalizing handler with
  | nil => rfl
  | cons first calls hypothesis => exact hypothesis.trans (arrival_step handler first call)

theorem windowDuration_run (calls : List EphemeralCall) :
    (handler.run calls).nonceCache.windowDuration = handler.nonceCache.windowDuration := by
  induction calls generalizing handler with
  | nil => rfl
  | cons first calls hypothesis => exact hypothesis.trans (windowDuration_step handler first)

theorem behind_run {time : TimestampSeconds} (behind : ∀ call ∈ calls, handler.nonceCache.Behind call.now)
    (beforeLast : handler.nonceCache.Behind time) (clock : ClockForward calls)
    (last : ∀ call ∈ calls, call.now.asSecs ≤ time.asSecs) : (handler.run calls).nonceCache.Behind time := by
  induction calls generalizing handler with
  | nil => exact beforeLast
  | cons call calls hypothesis =>
    have began := behind_step (behind call mem_cons_self)
    obtain ⟨first, rest⟩ := pairwise_cons.mp clock
    refine hypothesis (fun later member => began.mono (first later member)) ?_ rest fun later member =>
      last later (mem_cons_of_mem _ member)
    exact began.mono (last call mem_cons_self)

theorem keeps_run {key : EphemeralKey} {time : TimestampSeconds} (keeps : handler.Keeps key time)
    (behind : ∀ call ∈ calls, handler.nonceCache.Behind call.now) (clock : ClockForward calls)
    (within : ∀ call ∈ calls, time.asSecs ≤ call.now.asSecs ∧
      (time.absDiff call.now).nanos ≤ handler.nonceCache.windowDuration.nanos)
    (stays : ∀ call ∈ calls, call.input ≠ .peerDisconnected key.issuer) : (handler.run calls).Keeps key time := by
  induction calls generalizing handler with
  | nil => exact keeps
  | cons call calls hypothesis =>
    have began := behind call mem_cons_self
    obtain ⟨past, recent⟩ := within call mem_cons_self
    obtain ⟨first, rest⟩ := pairwise_cons.mp clock
    refine hypothesis (keeps_step keeps began past recent (stays call mem_cons_self))
      (fun later member => (behind_step began).mono (first later member)) rest ?_ ?_
    · rw [windowDuration_step]
      exact fun later member => within later (mem_cons_of_mem _ member)
    · exact fun later member => stays later (mem_cons_of_mem _ member)

theorem not_claimed_later {call : EphemeralCall} {key : EphemeralKey}
    (prompt : handler.Prompt (call :: calls)) (clock : ClockForward (call :: calls))
    (behind : handler.nonceCache.Behind call.now) (claims : handler.claimed call = some key) :
    ∀ entry ∈ (handler.step call).1.trace calls, entry.1.claimed entry.2 ≠ some key := by
  intro entry member claimsAgain
  obtain ⟨before, after, isSplit, isRun⟩ := mem_trace member
  have arrives : handler.arrival entry.2 = some key := by
    have arrived := arrival_of_claimed claimsAgain
    rwa [isRun, arrival_run, arrival_step] at arrived
  -- the second arrival is within the window, and with it everything between the two
  obtain ⟨recent, stays⟩ := prompt [] call before entry.2 after (by rw [isSplit]; rfl) key
    (arrival_of_claimed claims) arrives
  obtain ⟨first, rest⟩ := pairwise_cons.mp clock
  rw [isSplit] at first rest
  obtain ⟨restBefore, _, ordered⟩ := pairwise_append.mp rest
  have pastEntry : call.now.asSecs ≤ entry.2.now.asSecs := first entry.2 (by simp)
  have pastBefore : ∀ other ∈ before, call.now.asSecs ≤ other.now.asSecs := fun other inBefore =>
    first other (mem_append_left _ inBefore)
  have beforeEntry : ∀ other ∈ before, other.now.asSecs ≤ entry.2.now.asSecs := fun other inBefore =>
    ordered other inBefore entry.2 mem_cons_self
  have began := behind_step behind
  have recentBefore : ∀ other ∈ before, (call.now.absDiff other.now).nanos ≤
      (handler.step call).1.nonceCache.windowDuration.nanos := by
    intro other inBefore
    rw [windowDuration_step]
    exact (TimestampSeconds.nanos_absDiff_mono (pastBefore other inBefore)
      (beforeEntry other inBefore)).trans recent
  have keeps := keeps_run (keeps_of_claimed claims behind)
    (fun other inBefore => began.mono (pastBefore other inBefore)) restBefore
    (fun other inBefore => ⟨pastBefore other inBefore, recentBefore other inBefore⟩) stays
  rw [← isRun] at keeps
  refine not_claimed_of_keeps keeps ?_ pastEntry ?_ claimsAgain
  · rw [isRun]
    exact behind_run (fun other inBefore => began.mono (pastBefore other inBefore)) (began.mono pastEntry)
      restBefore beforeEntry
  · rwa [isRun, windowDuration_run, windowDuration_step]

theorem pairwise_claimed (prompt : handler.Prompt calls) (clock : ClockForward calls)
    (behind : ∀ call ∈ calls, handler.nonceCache.Behind call.now) :
    (handler.trace calls).Pairwise fun first second =>
      ∀ key, first.1.claimed first.2 = some key → second.1.claimed second.2 ≠ some key := by
  induction calls generalizing handler with
  | nil => exact .nil
  | cons call calls hypothesis =>
    obtain ⟨first, rest⟩ := pairwise_cons.mp clock
    have began := behind call mem_cons_self
    refine .cons (fun entry member key claims => ?_) (hypothesis prompt.tail rest fun later member =>
      (behind_step began).mono (first later member))
    exact not_claimed_later prompt clock began claims entry member

theorem prompt_of_short (short : ∀ first ∈ calls, ∀ second ∈ calls,
      (first.now.absDiff second.now).nanos ≤ handler.nonceCache.windowDuration.nanos)
    (stays : ∀ call ∈ calls, ∀ peer, call.input ≠ .peerDisconnected peer) : handler.Prompt calls := by
  rintro before first middle second after rfl key _ _
  refine ⟨short first (by simp) second (by simp), fun call inMiddle => stays call ?_ _⟩
  exact mem_append_right _ (mem_cons_of_mem _ (mem_append_left _ inMiddle))

/-- **Ephemeral messages are delivered at most once** where repetitions are prompt: no two events and no
two fan-outs of a run have one key, and no event has the key of a message that was published. -/
theorem delivered_at_most_once (connections : FinMap PeerId Nat) (calls : List EphemeralCall)
    (clock : ClockForward calls)
    (prompt : (EphemeralHandler.new connections .default).Prompt calls) :
    let handler := EphemeralHandler.new connections .default
    ((handler.outputs calls).filterMap EphemeralOutput.eventKey?).Nodup ∧
      ((handler.outputs calls).filterMap EphemeralOutput.fanOutKey?).Nodup ∧
      ∀ key ∈ (handler.trace calls).filterMap fun entry => entry.1.published entry.2,
        key ∉ (handler.outputs calls).filterMap EphemeralOutput.eventKey? := by
  intro handler
  have once := pairwise_claimed prompt clock fun call _ => EphemeralNonceCache.behind_new _ _
  have ofOutputs : ∀ {key? : EphemeralOutput → Option EphemeralKey},
      (∀ (handler : EphemeralHandler) (call : EphemeralCall) (key : EphemeralKey),
        key? (handler.step call).2 = some key → handler.claimed call = some key) →
      ((handler.outputs calls).filterMap key?).Nodup := by
    intro key? claims
    refine List.pairwise_filterMap.mpr (List.pairwise_map.mpr (once.imp ?_))
    intro first second apart key isFirst other isSecond same
    rw [same] at isFirst
    exact apart other (claims _ _ _ isFirst) (claims _ _ _ isSecond)
  refine ⟨ofOutputs fun _ _ _ given => (claimed_of_eventKey? given).1,
    ofOutputs fun _ _ _ given => claimed_of_fanOutKey? given, fun key isPublished delivered => ?_⟩
  obtain ⟨first, inTrace, publishes⟩ := List.mem_filterMap.mp isPublished
  obtain ⟨output, isOutput, isEvent⟩ := List.mem_filterMap.mp delivered
  obtain ⟨second, alsoInTrace, rfl⟩ := List.mem_map.mp isOutput
  obtain ⟨claims, notPublished⟩ := claimed_of_eventKey? isEvent
  have different : first ≠ second := by
    rintro rfl
    exact absurd (publishes.symm.trans notPublished) nofun
  have symmetric : Std.Symm fun first second : EphemeralHandler × EphemeralCall =>
      ∀ key, first.1.claimed first.2 = some key → second.1.claimed second.2 ≠ some key :=
    ⟨fun _ _ apart key claimsSecond claimsFirst => apart key claimsFirst claimsSecond⟩
  exact once.forall inTrace alsoInTrace different key (claimed_of_published publishes) claims

end Prompt

/-! ### Messages that are delivered twice -/

attribute [local instance] IterOrder.ascending eightBytes shownKeys

/-- A message of key `7` on topic `1` with the nonce and the stamp. -/
def ping (nonce stamp : UInt64) : Signed EphemeralPayload :=
  .sealPayload (signerOf 7) ⟨⟨1⟩, nonce, ⟨stamp⟩, [1]⟩

def relayedAt (now : UInt64) (relay : PeerId) (message : Signed EphemeralPayload) : EphemeralCall :=
  ⟨⟨now⟩, .open, .handle (relay, 0) (.ephemeral message)⟩

def publishing (now : UInt64) (message : Signed EphemeralPayload) : EphemeralCall :=
  ⟨⟨now⟩, .open, .publish (.ephemeral message)⟩

/-- A message is received, its issuer departs, and another relay brings it again. -/
def replayAfterDeparture : List EphemeralCall :=
  [relayedAt 100 ⟨2⟩ (ping 1 100), ⟨⟨101⟩, .open, .peerDisconnected ⟨7⟩⟩, relayedAt 102 ⟨3⟩ (ping 1 100)]

/-- A message that is stamped half a minute ahead comes, and again after two rotations. -/
def replayFromTheFuture : List EphemeralCall :=
  [relayedAt 70 ⟨2⟩ (ping 0 70), relayedAt 100 ⟨2⟩ (ping 1 130), relayedAt 101 ⟨2⟩ (ping 2 101),
    relayedAt 132 ⟨2⟩ (ping 3 132), relayedAt 132 ⟨3⟩ (ping 1 130)]

/-- The same messages are published, and one comes back. -/
def bounceFromTheFuture : List EphemeralCall :=
  [publishing 70 (ping 0 70), publishing 100 (ping 1 130), publishing 101 (ping 2 101),
    publishing 132 (ping 3 132), relayedAt 132 ⟨3⟩ (ping 1 130)]

/-- **Delivered twice**: the message with nonce `1` gives two events in each of the first two runs, and in
the third an event at the node that published it. -/
theorem message_delivered_twice : let handler := EphemeralHandler.new ∅ .default
    let key : EphemeralKey := ⟨⟨7⟩, ⟨1⟩, 1⟩
    (ClockForward replayAfterDeparture ∧
      (handler.outputs replayAfterDeparture).filterMap EphemeralOutput.eventKey? = [key, key]) ∧
    (ClockForward replayFromTheFuture ∧
      ((handler.outputs replayFromTheFuture).filterMap EphemeralOutput.eventKey?).count key = 2) ∧
    (ClockForward bounceFromTheFuture ∧
      key ∈ ((handler.trace bounceFromTheFuture).filterMap fun entry => entry.1.published entry.2) ∧
      (handler.outputs bounceFromTheFuture).filterMap EphemeralOutput.eventKey? = [key]) := by
  decide +kernel

/-- A message comes over two relays, and one that was published comes back. -/
def promptCalls : List EphemeralCall :=
  [relayedAt 100 ⟨2⟩ (ping 1 100), publishing 101 (ping 2 101), relayedAt 102 ⟨3⟩ (ping 1 100),
    relayedAt 103 ⟨3⟩ (ping 2 101)]

theorem promptCalls_prompt :
    ClockForward promptCalls ∧ (EphemeralHandler.new ∅ .default).Prompt promptCalls := by
  refine ⟨by decide +kernel, prompt_of_short (by decide +kernel) ?_⟩
  simp [promptCalls, relayedAt, publishing]

theorem delivered_at_most_once_promptCalls : let handler := EphemeralHandler.new ∅ .default
    (ClockForward promptCalls ∧ handler.Prompt promptCalls) ∧
      (handler.outputs promptCalls).filterMap EphemeralOutput.eventKey? = [⟨⟨7⟩, ⟨1⟩, 1⟩] ∧
      ((handler.outputs promptCalls).filterMap EphemeralOutput.eventKey?).Nodup ∧
      ((handler.outputs promptCalls).filterMap EphemeralOutput.fanOutKey?).Nodup ∧
      ∀ key ∈ (handler.trace promptCalls).filterMap fun entry => entry.1.published entry.2,
        key ∉ (handler.outputs promptCalls).filterMap EphemeralOutput.eventKey? :=
  ⟨promptCalls_prompt, by decide +kernel, @delivered_at_most_once eightBytes shownKeys
    (IterOrder.ascending PeerId) (IterOrder.ascending Topic) ∅ promptCalls promptCalls_prompt.1
    promptCalls_prompt.2⟩

end Subduction
