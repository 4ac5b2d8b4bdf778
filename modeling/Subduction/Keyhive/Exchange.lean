/-
**A full exchange between two peers.**

The totals that both sides store as syncpoints are those from before the exchange, so a check that
follows passes only if nothing was exchanged; the next exchange then stores totals that match.

* **`exchange_spec`** — the sets and syncpoints that an exchange leaves.
* **`judgedInSync_iff`**, **`exchange_establishes_iff`**.
-/

import Subduction.Keyhive.Transparent

set_option linter.unusedSectionVars false

namespace Subduction

open PeriodicEventCache Finset

namespace KeyhiveProtocol

/-! ### Two nodes -/

section Network

variable {κ : Type} [Ed25519] [PublicAgent] [KeyhiveCore κ]

/-- A node with a fresh cache handles a message. -/
def receive (node : KeyhiveProtocol κ) (sender : KeyhivePeerId) (send : KeyhiveSend) :
    KeyhiveProtocol κ :=
  (exec (handleMessage sender sender send.message send.includeContactCard none) node.refreshCache).2

/-- What the sender has signed is delivered: both nodes afterwards. -/
def deliver (sender receiver : KeyhiveProtocol κ) : KeyhiveProtocol κ × KeyhiveProtocol κ :=
  ({ sender with outbox := [] },
    sender.outbox.foldl (fun node send => node.receive sender.peerId send) receiver)

/-- **A full exchange**: the request, the response, the operations that were asked for or the
confirmation, and the confirmation of the operations. -/
def exchange [IterOrder KeyhivePeerId] (requester responder : KeyhiveProtocol κ) :
    KeyhiveProtocol κ × KeyhiveProtocol κ :=
  let requester := (exec (syncKeyhive (some responder.peerId)) requester.refreshCache).2
  let requested := deliver requester responder
  let answered := deliver requested.2 requested.1
  let sent := deliver answered.2 answered.1
  let confirmed := deliver sent.2 sent.1
  (confirmed.2, confirmed.1)

/-- **The check of a sender is judged in sync**: the sender has a syncpoint and sends a check, and the
receiver answers with nothing. -/
def JudgedInSync (sender receiver : KeyhiveProtocol κ) : Prop :=
  let sender := (exec (initiateSyncWithPeer receiver.peerId) sender.refreshCache).2
  (∃ total syncpoint digest, sender.outbox =
    [⟨receiver.peerId, .syncCheck sender.peerId receiver.peerId total syncpoint digest, false⟩]) ∧
    (deliver sender receiver).2.outbox = []

theorem exchange_eq [IterOrder KeyhivePeerId] {requester responder : KeyhiveProtocol κ}
    {waiting answering serving replying resting done last confirmed : KeyhiveProtocol κ}
    (requested : deliver (exec (syncKeyhive (some responder.peerId)) requester.refreshCache).2 responder =
      (waiting, answering))
    (answered : deliver answering waiting = (serving, replying))
    (sent : deliver replying serving = (resting, done))
    (taken : deliver done resting = (last, confirmed)) :
    exchange requester responder = (confirmed, last) := by
  unfold exchange
  simp only [requested, answered, sent, taken]

theorem exec_handleMessage {node : KeyhiveProtocol κ} {sender : KeyhivePeerId}
    {message : KeyhiveMessage} (own : message.senderId = sender) (conn : Option Bool) :
    exec (handleMessage sender sender message false conn) node =
      exec (dispatchMessage message (node.cachedEventsForPairWithPeer sender) conn) node := by
  unfold handleMessage
  rw [exec_bind_of_ok exec_get]
  have isSender : message.senderId.sameIdentity sender := by
    rw [own]
    rfl
  have isSigner : sender.sameIdentity sender := rfl
  simp only [isSigner, isSender, if_true, Bool.false_eq_true, if_false]

theorem receive_eq {sender target : KeyhivePeerId} {message : KeyhiveMessage} (node : KeyhiveProtocol κ)
    (own : message.senderId = sender) :
    node.receive sender ⟨target, message, false⟩ =
      (exec (dispatchMessage message (node.refreshCache.cachedEventsForPairWithPeer sender) none)
        node.refreshCache).2 := by
  rw [receive, exec_handleMessage own]

end Network

/-! ### A peer of the pair -/

section Pair

variable [Ed25519] [PublicAgent]

/-- **A node of one of two peers** with its operations, connected to the other one. -/
structure IsPeer (node : KeyhiveProtocol PairKeyhive) (us them : Identifier)
    (pair pending : Finset EventHash) : Prop where
  peerId : node.peerId = .fromIdentifier us
  keyhive : node.keyhive = ⟨us, them, pair, pending⟩
  connected : node.peers.get? (.fromIdentifier them) = some true
  coherent : node.cache.Coherent node.keyhive

variable {node : KeyhiveProtocol PairKeyhive} {us them : Identifier} {pair pending : Finset EventHash}

theorem toIdentifier_fromIdentifier (id : Identifier) :
    (KeyhivePeerId.fromIdentifier id).toIdentifier = some id :=
  KeyhivePeerId.toIdentifier_eq_some.mpr rfl

theorem staticEventsForAgent_pair {id : Identifier} (isPeer : id = us ∨ id = them) :
    staticEventsForAgent (⟨us, them, pair, pending⟩ : PairKeyhive) id = pair := by
  unfold staticEventsForAgent
  show (((FinMap.insert ∅ us pair).insert them pair).get? id).getD ∅ = pair
  rw [FinMap.get?_insert, FinMap.get?_insert]
  rcases isPeer with rfl | rfl
  · simp
  · simp

theorem known_pair {id : Identifier} (isPeer : id = us ∨ id = them) :
    Known (⟨us, them, pair, pending⟩ : PairKeyhive) (.fromIdentifier id) := by
  refine ⟨id, toIdentifier_fromIdentifier id, ?_⟩
  show id ∈ ((FinMap.insert ∅ us pair).insert them pair).keys
  rw [FinMap.keys_insert, FinMap.keys_insert]
  rcases isPeer with rfl | rfl
  · simp
  · simp

theorem publicEvents_pair : publicEvents (⟨us, them, pair, pending⟩ : PairKeyhive) ⊆ pair := by
  unfold publicEvents
  by_cases isPeer : PublicAgent.publicId = us ∨ PublicAgent.publicId = them
  · rw [staticEventsForAgent_pair isPeer]
  · obtain ⟨notUs, notThem⟩ := not_or.mp isPeer
    unfold staticEventsForAgent
    show (((FinMap.insert ∅ us pair).insert them pair).get? PublicAgent.publicId).getD ∅ ⊆ pair
    rw [FinMap.get?_insert_of_ne _ _ notThem, FinMap.get?_insert_of_ne _ _ notUs]
    exact empty_subset _

theorem getEventsForPeerPair_pair :
    getEventsForPeerPair (⟨us, them, pair, pending⟩ : PairKeyhive) (.fromIdentifier us)
      (.fromIdentifier them) = .ok (some (serialized PairKeyhive pair)) := by
  rw [getEventsForPeerPair_of_known (known_pair (.inl rfl)) (known_pair (.inr rfl)),
    eventsOf_eq (toIdentifier_fromIdentifier us), eventsOf_eq (toIdentifier_fromIdentifier them),
    staticEventsForAgent_pair (.inl rfl), staticEventsForAgent_pair (.inr rfl), inter_self,
    union_eq_right.mpr publicEvents_pair]

theorem cachedSet_pair :
    cachedSet (⟨us, them, pair, pending⟩ : PairKeyhive) (.fromIdentifier us) (.fromIdentifier them) =
      pair := by
  rw [cachedSet_of_known (known_pair (.inl rfl)) (known_pair (.inr rfl)) rfl rfl,
    eventsOf_eq (toIdentifier_fromIdentifier us), eventsOf_eq (toIdentifier_fromIdentifier them),
    staticEventsForAgent_pair (.inl rfl), staticEventsForAgent_pair (.inr rfl), inter_self,
    union_eq_right.mpr publicEvents_pair]

section

variable (isPeer : IsPeer node us them pair pending)

include isPeer

theorem IsPeer.congr {other : KeyhiveProtocol PairKeyhive}
    (peerId : other.peerId = node.peerId) (keyhive : other.keyhive = node.keyhive)
    (peers : other.peers = node.peers) (cache : other.cache = node.cache) :
    IsPeer other us them pair pending := by
  refine ⟨peerId.trans isPeer.peerId, keyhive.trans isPeer.keyhive, ?_, ?_⟩
  · rw [peers]
    exact isPeer.connected
  · rw [cache, keyhive]
    exact isPeer.coherent

theorem IsPeer.refreshCache : IsPeer node.refreshCache us them pair pending :=
  ⟨isPeer.peerId, isPeer.keyhive, isPeer.connected,
    coherent_of_refresh isPeer.coherent fun _ => rfl⟩

theorem IsPeer.current : node.refreshCache.cache.Current node.refreshCache.keyhive :=
  current_refresh isPeer.coherent

theorem IsPeer.cached : node.refreshCache.cachedEventsForPairWithPeer (.fromIdentifier them) =
      if pair = ∅ then none else some (serialized PairKeyhive pair) := by
  rw [cachedEvents_of_current isPeer.current, isPeer.refreshCache.peerId, isPeer.refreshCache.keyhive,
    cachedSet_pair]

theorem IsPeer.lookup : node.refreshCache.eventsForPair
        (node.refreshCache.cachedEventsForPairWithPeer (.fromIdentifier them)) (.fromIdentifier them) =
      .ok (some (serialized PairKeyhive pair)) := by
  rw [isPeer.cached]
  by_cases nothing : pair = ∅
  · rw [if_pos nothing, eventsForPair, isPeer.refreshCache.peerId, isPeer.refreshCache.keyhive]
    exact getEventsForPeerPair_pair
  · rw [if_neg nothing]
    rfl

theorem IsPeer.sendResult : node.sendResult (.fromIdentifier them) = .ok () := by
  rw [KeyhiveProtocol.sendResult, isPeer.connected]

theorem IsPeer.getPendingHashes : node.getPendingHashes = ascendingList pending := by
  rw [KeyhiveProtocol.getPendingHashes, isPeer.keyhive]
  rfl

end

def bytesOf (events : Finset EventHash) : List (List UInt8) :=
  (ascendingList events).map (KeyhiveCore.serializeEvent PairKeyhive)

theorem bytesOf_eq_nil {events : Finset EventHash} : bytesOf events = [] ↔ events = ∅ := by
  rw [bytesOf, List.map_eq_nil_iff, ← List.length_eq_zero_iff, length_ascendingList, card_eq_zero]

theorem ascendingList_eq_nil {events : Finset EventHash} : ascendingList events = [] ↔ events = ∅ := by
  rw [← List.length_eq_zero_iff, length_ascendingList, card_eq_zero]

theorem ingest_bytesOf (keyhive : PairKeyhive) (events : Finset EventHash) :
    KeyhiveCore.ingestUnsortedStaticEvents keyhive (bytesOf events) =
      some { keyhive with pair := keyhive.pair ∪ events } := by
  have decoded (hashes : List EventHash) :
      (hashes.map (KeyhiveCore.serializeEvent PairKeyhive)).mapM PairKeyhive.decodeEvent = some hashes := by
    induction hashes with
    | nil => rfl
    | cons hash hashes ih =>
      have first : PairKeyhive.decodeEvent (KeyhiveCore.serializeEvent PairKeyhive hash) = some hash :=
        PairKeyhive.decodeEvent_bytesBE hash
      rw [List.map_cons, List.mapM_cons, first, ih]
      rfl
  show Option.map _ ((bytesOf events).mapM PairKeyhive.decodeEvent) = _
  have members : (ascendingList events).toFinset = events := by
    ext hash
    rw [List.mem_toFinset, mem_ascendingList]
  rw [bytesOf, decoded, Option.map_some, members]

/-- The node with a fresh cache, after operations came in. -/
def grown (node : KeyhiveProtocol PairKeyhive) (events : Finset EventHash) : KeyhiveProtocol PairKeyhive :=
  { node.refreshCache with keyhive := { node.keyhive with pair := node.keyhive.pair ∪ events } }

theorem ingested_eq_grown (node : KeyhiveProtocol PairKeyhive) (events : Finset EventHash) :
    node.refreshCache.ingested (bytesOf events) = .ok (node.grown events) := by
  unfold KeyhiveProtocol.ingested grown
  by_cases nothing : events = ∅
  · rw [if_pos (bytesOf_eq_nil.mpr nothing), nothing, union_empty]
    rfl
  · rw [if_neg (mt bytesOf_eq_nil.mp nothing), ingest_bytesOf]
    rfl

/-- The cache stays coherent once operations came in: there are more of them, or the keyhive is the
same. -/
theorem IsPeer.grown (isPeer : IsPeer node us them pair pending) (events : Finset EventHash) :
    IsPeer (node.grown events) us them (pair ∪ events) pending := by
  refine ⟨isPeer.peerId, ?_, isPeer.connected, ?_⟩
  · show PairKeyhive.mk node.keyhive.us node.keyhive.them (node.keyhive.pair ∪ events)
      node.keyhive.pending = _
    rw [isPeer.keyhive]
  · refine coherent_of_refresh isPeer.coherent fun sameTotal => ?_
    have same : node.keyhive.pair = node.keyhive.pair ∪ events :=
      eq_of_subset_of_card_le subset_union_left (le_of_eq sameTotal)
    show PairKeyhive.mk node.keyhive.us node.keyhive.them (node.keyhive.pair ∪ events)
      node.keyhive.pending = node.keyhive
    rw [← same]

theorem filter_ascendingList (events : Finset EventHash) (keep : EventHash → Bool) :
    (ascendingList events).filter keep = ascendingList (events.filter fun hash => keep hash = true) := by
  refine eq_ascendingList_iff.mpr ⟨(pairwise_ascendingList events).filter _, ?_⟩
  ext hash
  simp [mem_ascendingList]

theorem filter_not_mem (events first second : Finset EventHash) :
    (ascendingList events).filter (fun hash =>
      decide (hash ∉ ascendingList first ∧ hash ∉ ascendingList second)) =
        ascendingList (events \ (first ∪ second)) := by
  rw [filter_ascendingList]
  congr 1
  ext hash
  simp [mem_ascendingList]

theorem opsOf_of_subset {events requested : Finset EventHash} (subset : requested ⊆ events) :
    opsOf PairKeyhive events (ascendingList requested) = bytesOf requested := by
  rw [opsOf_eq, bytesOf]
  congr 1
  exact List.filter_eq_self.mpr fun hash asked =>
    decide_eq_true (subset (mem_ascendingList.mp asked))

/-! ### The steps of an exchange -/

section

variable (isPeer : IsPeer node us them pair pending)

include isPeer

theorem IsPeer.after_sync (different : us ≠ them) :
    (exec (syncWith (.fromIdentifier them)) node.refreshCache).2 =
      node.refreshCache.signed (.fromIdentifier them) (.syncRequest (.fromIdentifier us)
        (.fromIdentifier them) (ascendingList pair) (ascendingList pending)) false := by
  have notUs : ¬ (KeyhivePeerId.fromIdentifier them).sameIdentity node.refreshCache.peerId := by
    rw [isPeer.refreshCache.peerId]
    intro same
    have isThem : (KeyhivePeerId.fromIdentifier us).toIdentifier = some them :=
      KeyhivePeerId.toIdentifier_eq_some.mpr same
    exact different (Option.some.inj ((toIdentifier_fromIdentifier us).symm.trans isThem))
  rw [exec_syncWith, if_neg notUs, isPeer.lookup, isPeer.refreshCache.peerId,
    isPeer.refreshCache.getPendingHashes]
  show node.refreshCache.signed _ (.syncRequest _ _ (ascendingList (serialized PairKeyhive pair).keys) _) _ = _
  rw [serialized, FinMap.keys_ofSet]

/-- **A request is answered** with what the requester lacks, and asks for what the node lacks. -/
theorem IsPeer.receive_request (theirPair theirPending : Finset EventHash) (target : KeyhivePeerId) :
    node.receive (.fromIdentifier them) ⟨target, .syncRequest (.fromIdentifier them)
        (.fromIdentifier us) (ascendingList theirPair) (ascendingList theirPending), false⟩ =
      node.refreshCache.signed (.fromIdentifier them) (.syncResponse (.fromIdentifier us)
        (.fromIdentifier them) (ascendingList (theirPair \ (pair ∪ pending)))
        (bytesOf (pair \ (theirPair ∪ theirPending))) (pair.card + pending.card)
        (theirPair.card + theirPending.card)) false := by
  refine Eq.trans (receive_eq node rfl) ?_
  show (exec (handleSyncRequest _ _ _ _) _).2 = _
  rw [exec_handleSyncRequest, isPeer.lookup]
  show node.refreshCache.signed _ (responseTo _ _ _ _ _) _ = _
  have keys : (serialized PairKeyhive pair).keys = pair := FinMap.keys_ofSet _ _
  have lacked : ((ascendingList theirPair).filter fun hash =>
      decide (hash ∉ (serialized PairKeyhive pair).keys ∧ hash ∉ ascendingList pending)) =
        ascendingList (theirPair \ (pair ∪ pending)) := by
    rw [← filter_not_mem, keys]
    simp only [mem_ascendingList]
  have found : ((ascendingList pair).filter fun hash =>
      decide (hash ∉ ascendingList theirPair ∧ hash ∉ ascendingList theirPending)).filterMap
        (serialized PairKeyhive pair).get? = bytesOf (pair \ (theirPair ∪ theirPending)) := by
    rw [filter_not_mem]
    exact opsOf_of_subset sdiff_subset
  rw [responseTo, isPeer.refreshCache.peerId, isPeer.refreshCache.getPendingHashes, lacked, keys, found]
  simp only [length_ascendingList]

theorem IsPeer.requestedOps {requested : Finset EventHash}
    (subset : requested ⊆ pair) (after : KeyhiveProtocol PairKeyhive) :
    after.requestedOps (.fromIdentifier them) (ascendingList requested)
        (node.refreshCache.cachedEventsForPairWithPeer (.fromIdentifier them)) =
      .ok (bytesOf requested) := by
  unfold KeyhiveProtocol.requestedOps
  by_cases nothing : requested = ∅
  · rw [if_neg (not_not.mpr (ascendingList_eq_nil.mpr nothing)), bytesOf_eq_nil.mpr nothing]
  · have some : pair ≠ ∅ := fun empty => nothing (subset_empty.mp (empty ▸ subset))
    rw [if_pos (mt ascendingList_eq_nil.mp nothing), isPeer.cached, if_neg some]
    exact congrArg Except.ok (opsOf_of_subset subset)

/-- **A response is handled**: what was found is ingested, and what was asked for is sent. -/
theorem IsPeer.receive_response {requested : Finset EventHash} (subset : requested ⊆ pair) (found : Finset EventHash)
    (responderTotal requesterTotal : Nat) (target : KeyhivePeerId) :
    let after := node.receive (.fromIdentifier them) ⟨target, .syncResponse (.fromIdentifier them)
      (.fromIdentifier us) (ascendingList requested) (bytesOf found) responderTotal requesterTotal, false⟩
    IsPeer after us them (pair ∪ found) pending ∧
      (requested ≠ ∅ → after.outbox = node.outbox ++ [⟨.fromIdentifier them, .syncOps
        (.fromIdentifier us) (.fromIdentifier them) (bytesOf requested) responderTotal requesterTotal,
        false⟩]) ∧
      (requested = ∅ → after.outbox = node.outbox ++ [⟨.fromIdentifier them, .syncConfirmation
        (.fromIdentifier us) (.fromIdentifier them) requesterTotal, false⟩] ∧
        after.syncpoints.get? (.fromIdentifier them) = some responderTotal) := by
  intro after
  have grown := isPeer.grown found
  have isAfter : ∃ advanced, after =
      ((node.grown found).answered (.fromIdentifier them) (bytesOf requested) responderTotal
        requesterTotal advanced).2 := by
    refine ⟨node.refreshCache.advancedTo (node.grown found), Eq.trans (receive_eq node rfl) ?_⟩
    show (exec (handleSyncResponse _ _ _ _ _ _) _).2 = _
    rw [exec_handleSyncResponse, ingested_eq_grown]
    dsimp only
    rw [isPeer.requestedOps subset]
  obtain ⟨advanced, isAfter⟩ := isAfter
  rw [isAfter]
  unfold answered
  by_cases nothing : requested = ∅
  · rw [if_neg (not_not.mpr (bytesOf_eq_nil.mpr nothing)), confirmed, grown.sendResult]
    refine ⟨grown.congr rfl rfl rfl rfl, fun some => absurd nothing some, fun _ => ⟨?_, ?_⟩⟩
    · show node.outbox ++ [⟨_, .syncConfirmation node.peerId _ _, _⟩] = _
      rw [isPeer.peerId]
    · exact FinMap.get?_insert_self _ _ _
  · rw [if_pos (mt bytesOf_eq_nil.mp nothing), grown.sendResult]
    refine ⟨grown.congr rfl rfl rfl rfl, fun _ => ?_, fun none => absurd none nothing⟩
    show node.outbox ++ [⟨_, .syncOps node.peerId _ _ _ _, _⟩] = _
    rw [isPeer.peerId]

/-- **Operations are handled**: they are ingested, and the total of the peer is stored. -/
theorem IsPeer.receive_ops (ops : Finset EventHash)
    (responderTotal requesterTotal : Nat) (target : KeyhivePeerId) :
    let after := node.receive (.fromIdentifier them) ⟨target, .syncOps (.fromIdentifier them)
      (.fromIdentifier us) (bytesOf ops) responderTotal requesterTotal, false⟩
    IsPeer after us them (pair ∪ ops) pending ∧
      after.outbox = node.outbox ++ [⟨.fromIdentifier them, .syncConfirmation (.fromIdentifier us)
        (.fromIdentifier them) responderTotal, false⟩] ∧
      after.syncpoints.get? (.fromIdentifier them) = some requesterTotal := by
  intro after
  have grown := isPeer.grown ops
  have isAfter : ∃ advanced, after =
      ((node.grown ops).confirmed (.fromIdentifier them) responderTotal requesterTotal advanced).2 := by
    refine ⟨node.refreshCache.advancedTo (node.grown ops), Eq.trans (receive_eq node rfl) ?_⟩
    show (exec (handleSyncOps _ _ _ _) _).2 = _
    rw [exec_handleSyncOps, ingested_eq_grown]
  obtain ⟨advanced, isAfter⟩ := isAfter
  rw [isAfter, confirmed, grown.sendResult]
  refine ⟨grown.congr rfl rfl rfl rfl, ?_, FinMap.get?_insert_self _ _ _⟩
  show node.outbox ++ [⟨_, .syncConfirmation node.peerId _ _, _⟩] = _
  rw [isPeer.peerId]

theorem IsPeer.receive_confirmation (total : Nat) (target : KeyhivePeerId) :
    let after := node.receive (.fromIdentifier them) ⟨target, .syncConfirmation (.fromIdentifier them)
      (.fromIdentifier us) total, false⟩
    IsPeer after us them pair pending ∧ after.outbox = node.outbox ∧
      after.syncpoints.get? (.fromIdentifier them) = some total := by
  intro after
  have isAfter : after = { node.refreshCache with
      syncpoints := node.syncpoints.insert (.fromIdentifier them) total } := receive_eq node rfl
  rw [isAfter]
  exact ⟨isPeer.refreshCache.congr rfl rfl rfl rfl, rfl, FinMap.get?_insert_self _ _ _⟩

/-! ### A full exchange -/

theorem IsPeer.flushed : IsPeer { node with outbox := [] } us them pair pending :=
  isPeer.congr rfl rfl rfl rfl

theorem IsPeer.signed (target : KeyhivePeerId) (message : KeyhiveMessage) (card : Bool) :
    IsPeer (node.signed target message card) us them pair pending :=
  isPeer.congr rfl rfl rfl rfl

theorem IsPeer.deliver_one {send : KeyhiveSend}
    (one : node.outbox = [send]) (receiver : KeyhiveProtocol PairKeyhive) : deliver node receiver =
      ({ node with outbox := [] }, receiver.receive (.fromIdentifier us) send) := by
  rw [deliver, one, isPeer.peerId]
  rfl

end

theorem deliver_none {sender : KeyhiveProtocol PairKeyhive} (none : sender.outbox = [])
    (receiver : KeyhiveProtocol PairKeyhive) :
    deliver sender receiver = ({ sender with outbox := [] }, receiver) := by
  rw [deliver, none]
  rfl

variable {requester responder : KeyhiveProtocol PairKeyhive} {first second : Identifier}
  {firstPair firstPending secondPair secondPending : Finset EventHash}

/-- **After an exchange** each side has what the other one had and it did not, unless it was pending,
and the total that the other one had before. -/
structure Exchanged (after : KeyhiveProtocol PairKeyhive × KeyhiveProtocol PairKeyhive)
    (first second : Identifier) (firstPair firstPending secondPair secondPending : Finset EventHash) :
    Prop where
  requester : IsPeer after.1 first second (firstPair ∪ secondPair \ (firstPair ∪ firstPending)) firstPending
  responder : IsPeer after.2 second first (secondPair ∪ firstPair \ (secondPair ∪ secondPending))
    secondPending
  requesterSyncpoint : after.1.syncpoints.get? (.fromIdentifier second) =
    some (secondPair.card + secondPending.card)
  responderSyncpoint : after.2.syncpoints.get? (.fromIdentifier first) =
    some (firstPair.card + firstPending.card)
  requesterOutbox : after.1.outbox = []
  responderOutbox : after.2.outbox = []

theorem exchange_spec [IterOrder KeyhivePeerId] (different : first ≠ second)
    (isRequester : IsPeer requester first second firstPair firstPending)
    (isResponder : IsPeer responder second first secondPair secondPending)
    (requesterEmpty : requester.outbox = []) (responderEmpty : responder.outbox = []) :
    Exchanged (exchange requester responder) first second firstPair firstPending secondPair
      secondPending := by
  let request : KeyhiveSend := ⟨.fromIdentifier second, .syncRequest (.fromIdentifier first)
    (.fromIdentifier second) (ascendingList firstPair) (ascendingList firstPending), false⟩
  let response : KeyhiveSend := ⟨.fromIdentifier first, .syncResponse (.fromIdentifier second)
    (.fromIdentifier first) (ascendingList (firstPair \ (secondPair ∪ secondPending)))
    (bytesOf (secondPair \ (firstPair ∪ firstPending))) (secondPair.card + secondPending.card)
    (firstPair.card + firstPending.card), false⟩
  let waiting : KeyhiveProtocol PairKeyhive := { requester.refreshCache with outbox := [] }
  let serving : KeyhiveProtocol PairKeyhive := { responder.refreshCache with outbox := [] }
  have isWaiting : IsPeer waiting first second firstPair firstPending := isRequester.refreshCache.flushed
  have isServing : IsPeer serving second first secondPair secondPending := isResponder.refreshCache.flushed
  let answering := responder.receive (.fromIdentifier first) request
  have isAnswering : answering = responder.refreshCache.signed response.target response.message false :=
    isResponder.receive_request _ _ _
  have requested : deliver (exec (syncKeyhive (some responder.peerId)) requester.refreshCache).2
      responder = (waiting, answering) := by
    rw [isResponder.peerId]
    show deliver (exec (syncWith _) _).2 responder = _
    rw [isRequester.after_sync different]
    refine (isRequester.refreshCache.signed _ _ _).deliver_one ?_ responder
    show requester.outbox ++ [request] = [request]
    rw [requesterEmpty, List.nil_append]
  have answered : deliver answering waiting = (serving, waiting.receive (.fromIdentifier second) response) := by
    rw [isAnswering]
    refine (isResponder.refreshCache.signed _ _ _).deliver_one ?_ waiting
    show responder.outbox ++ [response] = [response]
    rw [responderEmpty, List.nil_append]
  obtain ⟨isReplying, ops, confirmation⟩ := isWaiting.receive_response
    (sdiff_subset (s := firstPair) (t := secondPair ∪ secondPending))
    (secondPair \ (firstPair ∪ firstPending)) (secondPair.card + secondPending.card)
    (firstPair.card + firstPending.card) (.fromIdentifier first)
  by_cases nothing : firstPair \ (secondPair ∪ secondPending) = ∅
  · -- nothing was asked for: the requester confirms
    obtain ⟨replyOutbox, replySyncpoint⟩ := confirmation nothing
    obtain ⟨isDone, doneOutbox, doneSyncpoint⟩ := isServing.receive_confirmation
      (firstPair.card + firstPending.card) (.fromIdentifier second)
    rw [exchange_eq requested answered (isReplying.deliver_one replyOutbox serving)
      (deliver_none doneOutbox _)]
    refine ⟨isReplying.flushed, ?_, replySyncpoint, doneSyncpoint, rfl, rfl⟩
    rw [nothing, union_empty]
    exact isDone.flushed
  · -- the operations are sent: the responder confirms
    obtain ⟨isDone, doneOutbox, doneSyncpoint⟩ := isServing.receive_ops
      (firstPair \ (secondPair ∪ secondPending)) (secondPair.card + secondPending.card)
      (firstPair.card + firstPending.card) (.fromIdentifier second)
    obtain ⟨isLast, lastOutbox, lastSyncpoint⟩ := isReplying.flushed.receive_confirmation
      (secondPair.card + secondPending.card) (.fromIdentifier first)
    rw [exchange_eq requested answered (isReplying.deliver_one (ops nothing) serving)
      (isDone.deliver_one doneOutbox _)]
    exact ⟨isLast, isDone.flushed, lastSyncpoint, doneSyncpoint, lastOutbox, rfl⟩

/-! ### The check that follows -/

section

variable (isPeer : IsPeer node us them pair pending)

include isPeer

theorem IsPeer.pairSet : node.refreshCache.pairSet (.fromIdentifier them) = .ok pair := by
  rw [KeyhiveProtocol.pairSet, isPeer.lookup]
  exact congrArg Except.ok (FinMap.keys_ofSet pair _)

theorem IsPeer.after_check {syncpoint : Nat}
    (known : node.syncpoints.get? (.fromIdentifier them) = some syncpoint) :
    (exec (initiateSyncWithPeer (.fromIdentifier them)) node.refreshCache).2 =
      node.refreshCache.signed (.fromIdentifier them) (.syncCheck (.fromIdentifier us)
        (.fromIdentifier them) (pair.card + pending.card) syncpoint
        (pairSetDigest (ascendingList pair))) false := by
  have computed : node.refreshCache.computeTotalAndDigestForPeer (.fromIdentifier them) =
      .ok (pair.card + pending.card, pairSetDigest (ascendingList pair)) := by
    rw [computeTotalAndDigestForPeer, isPeer.pairSet, isPeer.refreshCache.getPendingHashes,
      length_ascendingList]
    rfl
  unfold initiateSyncWithPeer
  rw [exec_bind_of_ok exec_get]
  have isKnown : node.refreshCache.syncpoints.get? (.fromIdentifier them) = some syncpoint := known
  rw [isKnown]
  show (exec (syncCheckKeyhive _ _) _).2 = _
  unfold syncCheckKeyhive
  rw [exec_bind_of_ok exec_get, exec_bind, exec_liftM, computed]
  dsimp only
  rw [exec_signAndSend, isPeer.refreshCache.peerId]

/-- **A check is answered** with nothing if it passes, and with a request if not. -/
theorem IsPeer.outbox_receive_check (different : us ≠ them)
    {syncpoint : Nat} (known : node.syncpoints.get? (.fromIdentifier them) = some syncpoint)
    (empty : node.outbox = []) (target : KeyhivePeerId) (total theirs : Nat) (digest : EventHash) :
    (node.receive (.fromIdentifier them) ⟨target, .syncCheck (.fromIdentifier them)
      (.fromIdentifier us) total theirs digest, false⟩).outbox = [] ↔
        syncpoint = total ∧ theirs = pair.card + pending.card ∧
          digest = pairSetDigest (ascendingList pair) := by
  have isAfter : node.receive (.fromIdentifier them) ⟨target, .syncCheck (.fromIdentifier them)
      (.fromIdentifier us) total theirs digest, false⟩ =
        (exec (resolveSyncCheck (.fromIdentifier them) total theirs digest syncpoint)
          node.refreshCache).2 := by
    refine Eq.trans (receive_eq node rfl) ?_
    have isKnown : node.refreshCache.syncpoints.get? (.fromIdentifier them) = some syncpoint := known
    unfold dispatchMessage
    dsimp only
    rw [exec_bind_of_ok exec_get, isPeer.refreshCache.connected, isKnown]
    rfl
  have judged : node.refreshCache.inSync (.fromIdentifier them) total theirs digest syncpoint =
      .ok true ↔ _ := inSync_iff isPeer.pairSet
  rw [isPeer.refreshCache.getPendingHashes, length_ascendingList] at judged
  rw [isAfter, exec_resolveSyncCheck, ← judged]
  cases isJudged : node.refreshCache.inSync (.fromIdentifier them) total theirs digest syncpoint with
  | error error =>
    rw [inSync, computeTotalAndDigestForPeer, isPeer.pairSet] at isJudged
    cases isJudged
  | ok passed =>
    cases passed with
    | true => exact iff_of_true empty rfl
    | false =>
      dsimp only
      rw [isPeer.after_sync different]
      refine iff_of_false ?_ ?_
      · show node.outbox ++ [_] ≠ []
        simp
      · intro same
        cases same

end

theorem judgedInSync_iff {sender receiver : KeyhiveProtocol PairKeyhive} (different : first ≠ second)
    (isSender : IsPeer sender first second firstPair firstPending)
    (isReceiver : IsPeer receiver second first secondPair secondPending)
    (senderEmpty : sender.outbox = []) (receiverEmpty : receiver.outbox = [])
    {senderSyncpoint receiverSyncpoint : Nat}
    (senderKnown : sender.syncpoints.get? (.fromIdentifier second) = some senderSyncpoint)
    (receiverKnown : receiver.syncpoints.get? (.fromIdentifier first) = some receiverSyncpoint) :
    JudgedInSync sender receiver ↔ receiverSyncpoint = firstPair.card + firstPending.card ∧
        senderSyncpoint = secondPair.card + secondPending.card ∧
        pairSetDigest (ascendingList firstPair) = pairSetDigest (ascendingList secondPair) := by
  have check := isSender.after_check senderKnown
  have isOutbox : (sender.refreshCache.signed (.fromIdentifier second) (.syncCheck (.fromIdentifier first)
      (.fromIdentifier second) (firstPair.card + firstPending.card) senderSyncpoint
      (pairSetDigest (ascendingList firstPair))) false).outbox =
        [⟨.fromIdentifier second, .syncCheck (.fromIdentifier first) (.fromIdentifier second)
          (firstPair.card + firstPending.card) senderSyncpoint
          (pairSetDigest (ascendingList firstPair)), false⟩] := by
    show sender.outbox ++ _ = _
    rw [senderEmpty, List.nil_append]
  unfold JudgedInSync
  rw [isReceiver.peerId, check]
  dsimp only
  rw [(isSender.refreshCache.signed _ _ _).deliver_one isOutbox receiver,
    isReceiver.outbox_receive_check different.symm receiverKnown receiverEmpty]
  refine and_iff_right ⟨firstPair.card + firstPending.card, senderSyncpoint,
    pairSetDigest (ascendingList firstPair), ?_⟩
  rw [(isSender.refreshCache.signed _ _ _).peerId]
  exact isOutbox

theorem union_lacked_eq_iff {first second firstPending secondPending : Finset EventHash} :
    first ∪ second \ (first ∪ firstPending) = second ∪ first \ (second ∪ secondPending) ↔
      Disjoint (second \ first) firstPending ∧ Disjoint (first \ second) secondPending := by
  rw [Finset.disjoint_left, Finset.disjoint_left, Finset.ext_iff]
  simp only [Finset.mem_union, Finset.mem_sdiff]
  constructor
  · intro same
    refine ⟨fun hash member isPending => ?_, fun hash member isPending => ?_⟩
    · have := same hash
      tauto
    · have := same hash
      tauto
  · rintro ⟨notFirst, notSecond⟩ hash
    have := notFirst (a := hash)
    have := notSecond (a := hash)
    tauto

theorem card_union_lacked_iff {first second pending : Finset EventHash} :
    first.card = (first ∪ second \ (first ∪ pending)).card ↔ second \ first ⊆ pending := by
  have apart : Disjoint first (second \ (first ∪ pending)) := by
    rw [disjoint_left]
    intro hash member lacked
    simp [member] at lacked
  rw [card_union_of_disjoint apart, left_eq_add, card_eq_zero, sdiff_eq_empty_iff_subset]
  exact sdiff_le_iff.symm

section After

variable {after : KeyhiveProtocol PairKeyhive × KeyhiveProtocol PairKeyhive}

theorem Exchanged.pairs
    (exchanged : Exchanged after first second firstPair firstPending secondPair secondPending) :
    after.1.keyhive.pair = firstPair ∪ secondPair \ (firstPair ∪ firstPending) ∧
      after.2.keyhive.pair = secondPair ∪ firstPair \ (secondPair ∪ secondPending) := by
  rw [exchanged.requester.keyhive, exchanged.responder.keyhive]
  exact ⟨rfl, rfl⟩

variable (different : first ≠ second) (exchanged : Exchanged after first second firstPair firstPending secondPair secondPending)

include different exchanged

/-- **When the check after an exchange passes**: nothing was exchanged, and the digests are equal. -/
theorem Exchanged.judgedInSync_iff :
    JudgedInSync after.1 after.2 ↔ secondPair \ firstPair ⊆ firstPending ∧
      firstPair \ secondPair ⊆ secondPending ∧ pairSetDigest (ascendingList after.1.keyhive.pair) =
        pairSetDigest (ascendingList after.2.keyhive.pair) := by
  rw [KeyhiveProtocol.judgedInSync_iff different exchanged.requester exchanged.responder
      exchanged.requesterOutbox exchanged.responderOutbox exchanged.requesterSyncpoint
      exchanged.responderSyncpoint, exchanged.pairs.1, exchanged.pairs.2, add_left_inj, add_left_inj,
    card_union_lacked_iff, card_union_lacked_iff]

theorem Exchanged.judgedInSync_comm :
    JudgedInSync after.2 after.1 ↔ JudgedInSync after.1 after.2 := by
  rw [KeyhiveProtocol.judgedInSync_iff different exchanged.requester exchanged.responder
      exchanged.requesterOutbox exchanged.responderOutbox exchanged.requesterSyncpoint
      exchanged.responderSyncpoint,
    KeyhiveProtocol.judgedInSync_iff different.symm exchanged.responder exchanged.requester
      exchanged.responderOutbox exchanged.requesterOutbox exchanged.responderSyncpoint
      exchanged.requesterSyncpoint, eq_comm (a := pairSetDigest _)]
  exact and_left_comm

/-- **Equal sets and usable syncpoints** after an exchange: exactly if the sets were equal before. -/
theorem Exchanged.established_iff :
    (after.1.keyhive.pair = after.2.keyhive.pair ∧ JudgedInSync after.1 after.2 ∧
      JudgedInSync after.2 after.1) ↔ firstPair = secondPair := by
  rw [exchanged.judgedInSync_comm different, and_self, exchanged.judgedInSync_iff different,
    exchanged.pairs.1, exchanged.pairs.2, union_lacked_eq_iff]
  constructor
  · rintro ⟨⟨apartFirst, apartSecond⟩, toFirst, toSecond, -⟩
    refine Finset.Subset.antisymm ?_ ?_
    · exact sdiff_eq_empty_iff_subset.mp (disjoint_self_iff_empty _ |>.mp
        (apartSecond.mono_right toSecond))
    · exact sdiff_eq_empty_iff_subset.mp (disjoint_self_iff_empty _ |>.mp
        (apartFirst.mono_right toFirst))
  · rintro rfl
    have unchanged (pending : Finset EventHash) :
        firstPair ∪ firstPair \ (firstPair ∪ pending) = firstPair :=
      union_eq_left.mpr sdiff_subset
    simp [unchanged]

end After

/-- **What an exchange establishes.** Both sides have the same set unless one of them had an operation
of the other one pending. They have it, and a check of either of them is judged in sync, exactly if the
sets were the same before; then nothing was exchanged. So once the sets are the same, the next exchange
leaves usable syncpoints. -/
theorem exchange_establishes_iff [IterOrder KeyhivePeerId] (first second : Identifier)
    (different : first ≠ second) (firstPair firstPending secondPair secondPending : Finset EventHash)
    (requester responder : KeyhiveProtocol PairKeyhive)
    (isRequester : IsPeer requester first second firstPair firstPending)
    (isResponder : IsPeer responder second first secondPair secondPending)
    (requesterEmpty : requester.outbox = []) (responderEmpty : responder.outbox = []) :
    let after := exchange requester responder
    let again := exchange after.1 after.2
    (after.1.keyhive.pair = after.2.keyhive.pair ↔
      Disjoint (secondPair \ firstPair) firstPending ∧ Disjoint (firstPair \ secondPair) secondPending) ∧
    ((after.1.keyhive.pair = after.2.keyhive.pair ∧ JudgedInSync after.1 after.2 ∧
      JudgedInSync after.2 after.1) ↔ firstPair = secondPair) ∧
    (after.1.keyhive.pair = after.2.keyhive.pair →
      again.1.keyhive.pair = again.2.keyhive.pair ∧ JudgedInSync again.1 again.2 ∧
        JudgedInSync again.2 again.1) := by
  intro after again
  have exchanged : Exchanged after first second _ _ _ _ :=
    exchange_spec different isRequester isResponder requesterEmpty responderEmpty
  have exchangedAgain : Exchanged again first second _ _ _ _ :=
    exchange_spec different exchanged.requester exchanged.responder exchanged.requesterOutbox
      exchanged.responderOutbox
  refine ⟨?_, exchanged.established_iff different, fun same => ?_⟩
  · rw [exchanged.pairs.1, exchanged.pairs.2]
    exact union_lacked_eq_iff
  · rw [exchanged.pairs.1, exchanged.pairs.2] at same
    exact (exchangedAgain.established_iff different).mpr same

end Pair

theorem isPeer_ofPair [Ed25519] [PublicAgent] (us them : Identifier) (pair pending : Finset EventHash) :
    IsPeer (ofPair us them pair pending) us them pair pending :=
  ⟨rfl, rfl, FinMap.get?_insert_self _ _ _, coherent_new _⟩

attribute [local instance] IterOrder.ascending publicZero shownKeys

/-- **The first exchange leaves syncpoints that do not match**: one operation came over, and the
requester stores the total from before it. Both checks start another full exchange. -/
theorem exchange_leaves_stale_syncpoints :
    let after := exchange (ofPair (shownId 1) (shownId 2) {⟨1⟩} ∅) (ofPair (shownId 2) (shownId 1) ∅ ∅)
    after.1.keyhive.pair = {⟨1⟩} ∧ after.2.keyhive.pair = {⟨1⟩} ∧
      ¬ JudgedInSync after.1 after.2 ∧ ¬ JudgedInSync after.2 after.1 := by
  have different : shownId 1 ≠ shownId 2 := by decide +kernel
  have exchanged := @exchange_spec shownKeys publicZero _ _ _ _ _ _ _ _
    (IterOrder.ascending KeyhivePeerId) different
    (@isPeer_ofPair shownKeys publicZero (shownId 1) (shownId 2) {⟨1⟩} ∅)
    (@isPeer_ofPair shownKeys publicZero (shownId 2) (shownId 1) ∅ ∅) rfl rfl
  have moved : ¬ JudgedInSync _ _ := fun judged =>
    absurd ((exchanged.judgedInSync_iff different).mp judged).2.1 (by decide +kernel)
  exact ⟨exchanged.pairs.1.trans (by decide +kernel), exchanged.pairs.2.trans (by decide +kernel),
    moved, mt (exchanged.judgedInSync_comm different).mp moved⟩

theorem exchange_establishes_iff_shown :
    let after := exchange (ofPair (shownId 1) (shownId 2) {⟨1⟩, ⟨2⟩} {⟨5⟩})
      (ofPair (shownId 2) (shownId 1) {⟨2⟩, ⟨3⟩} ∅)
    let again := exchange after.1 after.2
    again.1.keyhive.pair = again.2.keyhive.pair ∧ JudgedInSync again.1 again.2 ∧
      JudgedInSync again.2 again.1 := by
  have different : shownId 1 ≠ shownId 2 := by decide +kernel
  have apart : Disjoint (({⟨2⟩, ⟨3⟩} : Finset EventHash) \ {⟨1⟩, ⟨2⟩}) {⟨5⟩} ∧
      Disjoint (({⟨1⟩, ⟨2⟩} : Finset EventHash) \ {⟨2⟩, ⟨3⟩}) ∅ := by decide +kernel
  have established := @exchange_establishes_iff shownKeys publicZero
    (IterOrder.ascending KeyhivePeerId) (shownId 1) (shownId 2) different {⟨1⟩, ⟨2⟩} {⟨5⟩}
    {⟨2⟩, ⟨3⟩} ∅ _ _ (@isPeer_ofPair shownKeys publicZero _ _ _ _)
    (@isPeer_ofPair shownKeys publicZero _ _ _ _) rfl rfl
  exact established.2.2 (established.1.mpr apart)

end KeyhiveProtocol

end Subduction
