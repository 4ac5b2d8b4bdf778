/-
**The keyhive sync protocol.**

A request carries the hashes of the pair and the pending ones. The responder sends what the requester
lacks and asks for what it lacks itself. At the end of an exchange each side stores the total that the
other one had when the exchange began, as its syncpoint for it; a check compares these totals and a
digest, and starts a full exchange when they do not match.

* **`exec_signAndSend`**, **`exec_syncWith`** and others — one equation for each handler.
-/

import Subduction.Keyhive.Cache

set_option linter.unusedSectionVars false

namespace Subduction

/-- A signed message for a peer; with the contact card of the sender if it introduces itself. -/
structure KeyhiveSend where
  target : KeyhivePeerId
  message : KeyhiveMessage
  includeContactCard : Bool
deriving DecidableEq

/-- **The state of a node.** A connection takes messages or fails. The outbox has what was signed: a
message is signed before the connection of its target is looked up. -/
structure KeyhiveProtocol (κ : Type) where
  peerId : KeyhivePeerId
  keyhive : κ
  peers : FinMap KeyhivePeerId Bool
  syncpoints : FinMap KeyhivePeerId Nat
  cache : PeriodicEventCache
  outbox : List KeyhiveSend

/-- Computations on a node; a failure keeps what was done before. -/
abbrev KeyhiveM (κ : Type) := ExceptT KeyhiveError (StateM (KeyhiveProtocol κ))

namespace KeyhiveProtocol

/-! ### The protocol -/

section Protocol

variable {κ : Type} [Ed25519] [PublicAgent] [KeyhiveCore κ]

/-- `cached_events_for_pair_with_peer`: an empty set counts as not cached. -/
def cachedEventsForPairWithPeer (node : KeyhiveProtocol κ) (peer : KeyhivePeerId) :
    Option AgentHashMap :=
  let map := node.cache.eventsForPeerPair node.peerId peer
  if map.keys = ∅ then none else some map

/-- The cached events of a pair, or those that are computed. -/
def eventsForPair (node : KeyhiveProtocol κ) (cached : Option AgentHashMap) (peer : KeyhivePeerId) :
    Except KeyhiveError (Option AgentHashMap) :=
  match cached with
  | some map => .ok (some map)
  | none => getEventsForPeerPair node.keyhive node.peerId peer

/-- `get_pending_hashes`. -/
def getPendingHashes (node : KeyhiveProtocol κ) : List EventHash :=
  KeyhiveCore.pendingEventHashes node.keyhive

/-- The set over which total and digest are computed; empty if the peer is unknown. -/
def pairSet (node : KeyhiveProtocol κ) (peer : KeyhivePeerId) : Except KeyhiveError (Finset EventHash) :=
  (node.eventsForPair (node.cachedEventsForPairWithPeer peer) peer).map fun pair =>
    (pair.map FinMap.keys).getD ∅

/-- `compute_total_and_digest_for_peer`. -/
def computeTotalAndDigestForPeer (node : KeyhiveProtocol κ) (peer : KeyhivePeerId) :
    Except KeyhiveError (Nat × EventHash) :=
  (node.pairSet peer).map fun pair =>
    (pair.card + node.getPendingHashes.length, pairSetDigest (ascendingList pair))

/-- `sign_and_send`. -/
def signAndSend (target : KeyhivePeerId) (message : KeyhiveMessage) (includeContactCard : Bool) :
    KeyhiveM κ Unit := do
  modify fun node => { node with outbox := node.outbox ++ [⟨target, message, includeContactCard⟩] }
  match (← get).peers.get? target with
  | none => throw (.unknownPeer target)
  | some false => throw .send
  | some true => pure ()

/-- One round of the loop of `sync_keyhive`. -/
def syncWith (targetId : KeyhivePeerId) : KeyhiveM κ Unit := do
  let node ← get
  if targetId.sameIdentity node.peerId then pure ()
  else
    match node.eventsForPair (node.cachedEventsForPairWithPeer targetId) targetId with
    | .error _ => pure ()
    | .ok (some hashes) =>
      signAndSend targetId
        (.syncRequest node.peerId targetId (ascendingList hashes.keys) node.getPendingHashes) false
    | .ok none => signAndSend targetId (.requestContactCard node.peerId targetId) true

/-- `sync_keyhive`: with the target, or with all peers. -/
def syncKeyhive [IterOrder KeyhivePeerId] (target : Option KeyhivePeerId) : KeyhiveM κ Unit := do
  let node ← get
  match target with
  | some targetId => syncWith targetId
  | none => (IterOrder.list node.peers.keys).forM syncWith

/-- `sync_check_keyhive`. -/
def syncCheckKeyhive (target : KeyhivePeerId) (ourSyncpointForTarget : Nat) : KeyhiveM κ Unit := do
  let node ← get
  let (ourTotal, ourDigest) ← node.computeTotalAndDigestForPeer target
  signAndSend target (.syncCheck node.peerId target ourTotal ourSyncpointForTarget ourDigest) false

/-- The verdict of `resolve_sync_check`. -/
def inSync (node : KeyhiveProtocol κ) (peer : KeyhivePeerId) (senderTotal senderSyncpoint : Nat)
    (senderDigest : EventHash) (localSyncpointForSender : Nat) : Except KeyhiveError Bool :=
  (node.computeTotalAndDigestForPeer peer).map fun ours =>
    decide (localSyncpointForSender = senderTotal ∧ senderSyncpoint = ours.1 ∧ senderDigest = ours.2)

/-- `resolve_sync_check`. -/
def resolveSyncCheck (peer : KeyhivePeerId) (senderTotal senderSyncpoint : Nat)
    (senderDigest : EventHash) (localSyncpointForSender : Nat) : KeyhiveM κ Unit := do
  let node ← get
  let passed ← node.inSync peer senderTotal senderSyncpoint senderDigest localSyncpointForSender
  if passed then pure () else syncWith peer

/-- `handle_sync_request`. -/
def handleSyncRequest (senderId : KeyhivePeerId) (peerFound peerPending : List EventHash)
    (cachedSenderPair : Option AgentHashMap) : KeyhiveM κ Unit := do
  let node ← get
  match ← node.eventsForPair cachedSenderPair senderId with
  | none => signAndSend senderId (.requestContactCard node.peerId senderId) true
  | some localEvents =>
    let ourPending := node.getPendingHashes
    let syncResponderTotal := localEvents.keys.card + ourPending.length
    let syncRequesterTotal := peerFound.length + peerPending.length
    let foundOps := ((ascendingList localEvents.keys).filter fun hash =>
      decide (hash ∉ peerFound ∧ hash ∉ peerPending)).filterMap localEvents.get?
    let requested := peerFound.filter fun hash =>
      decide (hash ∉ localEvents.keys ∧ hash ∉ ourPending)
    signAndSend senderId
      (.syncResponse node.peerId senderId requested foundOps syncResponderTotal syncRequesterTotal)
      false

/-- `ingest_events`, without the storage: the events are deserialized before any is ingested. -/
def ingestEvents (eventBytesList : List (List UInt8)) : KeyhiveM κ Unit := do
  let node ← get
  match KeyhiveCore.ingestUnsortedStaticEvents node.keyhive eventBytesList with
  | none => throw .deserialization
  | some keyhive => set { node with keyhive := keyhive }

def ingestNonempty (events : List (List UInt8)) : KeyhiveM κ Unit :=
  if events ≠ [] then ingestEvents events else pure ()

/-- `get_event_bytes_for_requested`. -/
def getEventBytesForRequested (node : KeyhiveProtocol κ) (senderId : KeyhivePeerId)
    (requested : List EventHash) (cachedPair : Option AgentHashMap) :
    Except KeyhiveError (List (List UInt8)) :=
  (node.eventsForPair cachedPair senderId).map fun
    | none => []
    | some pair => requested.filterMap pair.get?

/-- The operations that a response asks for; nothing is looked up if it asks for none. -/
def requestedOps (node : KeyhiveProtocol κ) (senderId : KeyhivePeerId)
    (requestedHashes : List EventHash) (cached : Option AgentHashMap) :
    Except KeyhiveError (List (List UInt8)) :=
  if requestedHashes ≠ [] then node.getEventBytesForRequested senderId requestedHashes cached else .ok []

/-- `SyncpointMap::invalidate_all`, if operations were ingested. -/
def invalidate (advanced : Bool) (syncpoints : FinMap KeyhivePeerId Nat) : FinMap KeyhivePeerId Nat :=
  if advanced then ∅ else syncpoints

/-- Confirm an exchange, and store the total of the peer as its syncpoint. -/
def confirm (senderId : KeyhivePeerId) (ourTotal theirTotal : Nat) (advanced : Bool) :
    KeyhiveM κ Unit := do
  let node ← get
  signAndSend senderId (.syncConfirmation node.peerId senderId ourTotal) false
  modify fun node =>
    { node with syncpoints := (invalidate advanced node.syncpoints).insert senderId theirTotal }

/-- The operations that were asked for are sent back; without any the exchange is confirmed. -/
def answer (senderId : KeyhivePeerId) (ops : List (List UInt8))
    (syncResponderTotal syncRequesterTotal : Nat) (advanced : Bool) : KeyhiveM κ Unit := do
  let node ← get
  if ops ≠ [] then
    signAndSend senderId
      (.syncOps node.peerId senderId ops syncResponderTotal syncRequesterTotal) false
    modify fun node => { node with syncpoints := invalidate advanced node.syncpoints }
  else confirm senderId syncRequesterTotal syncResponderTotal advanced

/-- `handle_sync_response`. -/
def handleSyncResponse (senderId : KeyhivePeerId) (requestedHashes : List EventHash)
    (foundEvents : List (List UInt8)) (syncResponderTotal syncRequesterTotal : Nat)
    (cachedSenderPair : Option AgentHashMap) : KeyhiveM κ Unit := do
  let totalBefore := KeyhiveCore.totalOps (← get).keyhive
  ingestNonempty foundEvents
  let node ← get
  let advanced := decide (KeyhiveCore.totalOps node.keyhive ≠ totalBefore)
  let ops ← node.requestedOps senderId requestedHashes cachedSenderPair
  answer senderId ops syncResponderTotal syncRequesterTotal advanced

/-- `handle_sync_ops`. -/
def handleSyncOps (senderId : KeyhivePeerId) (ops : List (List UInt8))
    (syncResponderTotal syncRequesterTotal : Nat) : KeyhiveM κ Unit := do
  let totalBefore := KeyhiveCore.totalOps (← get).keyhive
  ingestNonempty ops
  let advanced := decide (KeyhiveCore.totalOps (← get).keyhive ≠ totalBefore)
  confirm senderId syncResponderTotal syncRequesterTotal advanced

/-- `ingest_contact_card`, without the storage. -/
def ingestContactCard (sender : KeyhivePeerId) : KeyhiveM κ Unit := do
  let node ← get
  match KeyhiveCore.receiveContactCard node.keyhive sender with
  | none => throw .receiveContactCard
  | some keyhive => set { node with keyhive := keyhive }

/-- The dispatch of `handle_message`. -/
def dispatchMessage (message : KeyhiveMessage) (cachedSenderPair : Option AgentHashMap)
    (conn : Option Bool) : KeyhiveM κ Unit := do
  match message with
  | .syncRequest senderId _ found pending => handleSyncRequest senderId found pending cachedSenderPair
  | .syncResponse senderId _ requested found responderTotal requesterTotal =>
    handleSyncResponse senderId requested found responderTotal requesterTotal cachedSenderPair
  | .syncOps senderId _ ops responderTotal requesterTotal =>
    handleSyncOps senderId ops responderTotal requesterTotal
  | .requestContactCard senderId _ => do
      signAndSend senderId (.missingContactCard (← get).peerId senderId) true
  | .missingContactCard senderId _ => syncWith senderId
  | .syncCheck senderId _ senderTotal senderSyncpoint senderDigest => do
      let node ← get
      match node.peers.get? senderId, conn with
      | none, some working => set { node with peers := node.peers.insert senderId working }
      | _, _ => pure ()
      resolveSyncCheck senderId senderTotal senderSyncpoint senderDigest
        ((node.syncpoints.get? senderId).getD 0)
  | .syncConfirmation senderId _ confirmerTotal =>
    modify fun node => { node with syncpoints := node.syncpoints.insert senderId confirmerTotal }

/-- `handle_message`, for a message with a valid signature of the given key. The cached pair is read
before the contact card is ingested. -/
def handleMessage (sender : KeyhivePeerId) (signer : KeyhivePeerId) (message : KeyhiveMessage)
    (contactCard : Bool) (conn : Option Bool) : KeyhiveM κ Unit := do
  let cachedSenderPair := (← get).cachedEventsForPairWithPeer sender
  if signer.sameIdentity sender then
    if contactCard then ingestContactCard sender
    if message.senderId.sameIdentity signer then dispatchMessage message cachedSenderPair conn
    else throw (.senderMismatch signer message.senderId)
  else throw (.senderMismatch sender signer)

/-- `initiate_sync_with_peer`. -/
def initiateSyncWithPeer (peer : KeyhivePeerId) : KeyhiveM κ Unit := do
  match (← get).syncpoints.get? peer with
  | some syncpoint => syncCheckKeyhive peer syncpoint
  | none => syncWith peer

/-- `refresh_cache`. -/
def refreshCache (node : KeyhiveProtocol κ) : KeyhiveProtocol κ :=
  { node with cache := node.cache.refresh node.keyhive }

end Protocol

/-! ### Running the protocol -/

section Exec

variable {κ : Type} {α β : Type}

def exec (computation : KeyhiveM κ α) (node : KeyhiveProtocol κ) :
    Except KeyhiveError α × KeyhiveProtocol κ :=
  (ExceptT.run computation).run node

variable {node : KeyhiveProtocol κ}

@[simp] theorem exec_get : exec (get : KeyhiveM κ (KeyhiveProtocol κ)) node = (.ok node, node) := rfl

@[simp] theorem exec_modify (change : KeyhiveProtocol κ → KeyhiveProtocol κ) :
    exec (modify change : KeyhiveM κ PUnit) node = (.ok ⟨⟩, change node) := rfl

@[simp] theorem exec_liftM (result : Except KeyhiveError α) :
    exec (liftM result : KeyhiveM κ α) node = (result, node) := by
  cases result <;> rfl

theorem exec_bind (first : KeyhiveM κ α) (next : α → KeyhiveM κ β) :
    exec (first >>= next) node = match exec first node with
      | (.ok value, after) => exec (next value) after
      | (.error error, after) => (.error error, after) := by
  show ((ExceptT.run first >>= ExceptT.bindCont next) : StateM _ _).run node = _
  rw [StateT.run_bind]
  show (ExceptT.bindCont next (exec first node).1).run (exec first node).2 = _
  cases exec first node with
  | mk result after =>
    cases result with
    | ok value => rfl
    | error error => rfl

theorem exec_bind_of_ok {first : KeyhiveM κ α} {next : α → KeyhiveM κ β} {value : α}
    {after : KeyhiveProtocol κ} (ran : exec first node = (.ok value, after)) :
    exec (first >>= next) node = exec (next value) after := by
  rw [exec_bind, ran]

end Exec

section Handlers

variable {κ : Type} [Ed25519] [PublicAgent] [KeyhiveCore κ] {node : KeyhiveProtocol κ}

/-- The node with one more signed message. -/
def signed (node : KeyhiveProtocol κ) (target : KeyhivePeerId) (message : KeyhiveMessage)
    (includeContactCard : Bool) : KeyhiveProtocol κ :=
  { node with outbox := node.outbox ++ [⟨target, message, includeContactCard⟩] }

/-- What the connection of a peer makes of a message. -/
def sendResult (node : KeyhiveProtocol κ) (target : KeyhivePeerId) : Except KeyhiveError Unit :=
  match node.peers.get? target with
  | none => .error (.unknownPeer target)
  | some false => .error .send
  | some true => .ok ()

theorem exec_signAndSend (target : KeyhivePeerId) (message : KeyhiveMessage) (card : Bool) :
    exec (signAndSend target message card) node =
      (node.sendResult target, node.signed target message card) := by
  unfold signAndSend sendResult
  rw [exec_bind_of_ok (exec_modify _), exec_bind_of_ok exec_get]
  show exec (match node.peers.get? target with
    | none => throw (.unknownPeer target)
    | some false => throw .send
    | some true => pure ()) (node.signed target message card) = _
  cases node.peers.get? target with
  | none => rfl
  | some working => cases working <;> rfl

theorem exec_syncWith (targetId : KeyhivePeerId) : exec (syncWith targetId) node =
      if targetId.sameIdentity node.peerId then (.ok (), node)
      else match node.eventsForPair (node.cachedEventsForPairWithPeer targetId) targetId with
        | .error _ => (.ok (), node)
        | .ok (some hashes) => (node.sendResult targetId, node.signed targetId
            (.syncRequest node.peerId targetId (ascendingList hashes.keys) node.getPendingHashes) false)
        | .ok none => (node.sendResult targetId,
            node.signed targetId (.requestContactCard node.peerId targetId) true) := by
  unfold syncWith
  rw [exec_bind_of_ok exec_get]
  split
  · rfl
  · cases node.eventsForPair (node.cachedEventsForPairWithPeer targetId) targetId with
    | error error => rfl
    | ok pair =>
      cases pair with
      | none => exact exec_signAndSend _ _ _
      | some hashes => exact exec_signAndSend _ _ _

/-- What a responder sends for the events of a pair. -/
def responseTo (node : KeyhiveProtocol κ) (senderId : KeyhivePeerId)
    (peerFound peerPending : List EventHash) (localEvents : AgentHashMap) : KeyhiveMessage :=
  .syncResponse node.peerId senderId
    (peerFound.filter fun hash => decide (hash ∉ localEvents.keys ∧ hash ∉ node.getPendingHashes))
    (((ascendingList localEvents.keys).filter fun hash =>
      decide (hash ∉ peerFound ∧ hash ∉ peerPending)).filterMap localEvents.get?)
    (localEvents.keys.card + node.getPendingHashes.length) (peerFound.length + peerPending.length)

theorem exec_handleSyncRequest (senderId : KeyhivePeerId) (peerFound peerPending : List EventHash)
    (cached : Option AgentHashMap) :
    exec (handleSyncRequest senderId peerFound peerPending cached) node =
      match node.eventsForPair cached senderId with
      | .error error => (.error error, node)
      | .ok none => (node.sendResult senderId,
          node.signed senderId (.requestContactCard node.peerId senderId) true)
      | .ok (some localEvents) => (node.sendResult senderId, node.signed senderId
          (node.responseTo senderId peerFound peerPending localEvents) false) := by
  unfold handleSyncRequest
  rw [exec_bind_of_ok exec_get, exec_bind, exec_liftM]
  cases node.eventsForPair cached senderId with
  | error error => rfl
  | ok pair =>
    cases pair with
    | none => exact exec_signAndSend _ _ _
    | some localEvents => exact exec_signAndSend _ _ _

/-- The node after the events were ingested, or what failed. -/
def ingested (node : KeyhiveProtocol κ) (events : List (List UInt8)) :
    Except KeyhiveError (KeyhiveProtocol κ) :=
  if events = [] then .ok node
  else match KeyhiveCore.ingestUnsortedStaticEvents node.keyhive events with
    | none => .error .deserialization
    | some keyhive => .ok { node with keyhive := keyhive }

theorem exec_ingestNonempty (events : List (List UInt8)) : exec (ingestNonempty events) node =
      match node.ingested events with
      | .ok after => (.ok (), after)
      | .error error => (.error error, node) := by
  unfold ingestNonempty ingested
  by_cases nothing : events = []
  · rw [if_neg (not_not.mpr nothing), if_pos nothing]
    rfl
  · rw [if_pos nothing, if_neg nothing, ingestEvents, exec_bind_of_ok exec_get]
    cases KeyhiveCore.ingestUnsortedStaticEvents node.keyhive events with
    | none => rfl
    | some keyhive => rfl

def advancedTo (node after : KeyhiveProtocol κ) : Bool :=
  decide (KeyhiveCore.totalOps after.keyhive ≠ KeyhiveCore.totalOps node.keyhive)

/-- The node after an exchange was confirmed; the syncpoint is stored if the confirmation was sent. -/
def confirmed (node : KeyhiveProtocol κ) (senderId : KeyhivePeerId) (ourTotal theirTotal : Nat)
    (advanced : Bool) : Except KeyhiveError Unit × KeyhiveProtocol κ :=
  let sent := node.signed senderId (.syncConfirmation node.peerId senderId ourTotal) false
  match node.sendResult senderId with
  | .error error => (.error error, sent)
  | .ok _ => (.ok (), { sent with
      syncpoints := (invalidate advanced node.syncpoints).insert senderId theirTotal })

theorem exec_confirm (senderId : KeyhivePeerId) (ourTotal theirTotal : Nat) (advanced : Bool) :
    exec (confirm senderId ourTotal theirTotal advanced) node =
      node.confirmed senderId ourTotal theirTotal advanced := by
  unfold confirm confirmed
  rw [exec_bind_of_ok exec_get, exec_bind, exec_signAndSend]
  cases node.sendResult senderId with
  | error error => rfl
  | ok done => rfl

/-- What follows on a response, once its events are ingested and the operations are found. -/
def answered (node : KeyhiveProtocol κ) (senderId : KeyhivePeerId) (ops : List (List UInt8))
    (responderTotal requesterTotal : Nat) (advanced : Bool) :
    Except KeyhiveError Unit × KeyhiveProtocol κ :=
  if ops ≠ [] then
    let sent := node.signed senderId
      (.syncOps node.peerId senderId ops responderTotal requesterTotal) false
    match node.sendResult senderId with
    | .error error => (.error error, sent)
    | .ok _ => (.ok (), { sent with syncpoints := invalidate advanced node.syncpoints })
  else node.confirmed senderId requesterTotal responderTotal advanced

theorem exec_answer (senderId : KeyhivePeerId) (ops : List (List UInt8))
    (responderTotal requesterTotal : Nat) (advanced : Bool) :
    exec (answer senderId ops responderTotal requesterTotal advanced) node =
      node.answered senderId ops responderTotal requesterTotal advanced := by
  unfold answer answered
  rw [exec_bind_of_ok exec_get]
  by_cases nothing : ops = []
  · rw [if_neg (not_not.mpr nothing), if_neg (not_not.mpr nothing)]
    exact exec_confirm _ _ _ _
  · rw [if_pos nothing, if_pos nothing, exec_bind, exec_signAndSend]
    cases node.sendResult senderId with
    | error error => rfl
    | ok done => rfl

/-- **A response is handled**: its events are ingested, and the operations it asks for are sent, or the
exchange is confirmed. -/
theorem exec_handleSyncResponse (senderId : KeyhivePeerId) (requestedHashes : List EventHash)
    (foundEvents : List (List UInt8)) (responderTotal requesterTotal : Nat)
    (cached : Option AgentHashMap) :
    exec (handleSyncResponse senderId requestedHashes foundEvents responderTotal requesterTotal cached)
        node =
      match node.ingested foundEvents with
      | .error error => (.error error, node)
      | .ok after => match after.requestedOps senderId requestedHashes cached with
        | .error error => (.error error, after)
        | .ok ops => after.answered senderId ops responderTotal requesterTotal
            (node.advancedTo after) := by
  unfold handleSyncResponse
  rw [exec_bind_of_ok exec_get, exec_bind, exec_ingestNonempty]
  cases node.ingested foundEvents with
  | error error => rfl
  | ok after =>
    dsimp only
    rw [exec_bind_of_ok exec_get, exec_bind, exec_liftM]
    cases after.requestedOps senderId requestedHashes cached with
    | error error => rfl
    | ok ops => exact exec_answer _ _ _ _ _

/-- **Operations are handled**: they are ingested, and the exchange is confirmed. -/
theorem exec_handleSyncOps (senderId : KeyhivePeerId) (ops : List (List UInt8))
    (responderTotal requesterTotal : Nat) :
    exec (handleSyncOps senderId ops responderTotal requesterTotal) node =
      match node.ingested ops with
      | .error error => (.error error, node)
      | .ok after => after.confirmed senderId responderTotal requesterTotal (node.advancedTo after) := by
  unfold handleSyncOps
  rw [exec_bind_of_ok exec_get, exec_bind, exec_ingestNonempty]
  cases node.ingested ops with
  | error error => rfl
  | ok after =>
    dsimp only
    rw [exec_bind_of_ok exec_get]
    exact exec_confirm _ _ _ _

/-- **A check is resolved**: nothing is sent if it passes, and a full sync starts if not. -/
theorem exec_resolveSyncCheck (peer : KeyhivePeerId) (senderTotal senderSyncpoint : Nat)
    (senderDigest : EventHash) (localSyncpoint : Nat) :
    exec (resolveSyncCheck peer senderTotal senderSyncpoint senderDigest localSyncpoint) node =
      match node.inSync peer senderTotal senderSyncpoint senderDigest localSyncpoint with
      | .error error => (.error error, node)
      | .ok true => (.ok (), node)
      | .ok false => exec (syncWith peer) node := by
  unfold resolveSyncCheck
  rw [exec_bind_of_ok exec_get, exec_bind, exec_liftM]
  cases node.inSync peer senderTotal senderSyncpoint senderDigest localSyncpoint with
  | error error => rfl
  | ok passed => cases passed <;> rfl

end Handlers

end KeyhiveProtocol

end Subduction
