/-
**The event cache of the keyhive protocol.**

Right after a refresh a node decides from the cache where it would compute the events of a pair. The
cache has the public events for every pair it does not know, and knows peers by their names without
suffix; and what a response asks for is looked up in the events from before its own were ingested.

* **`eventsForPair_of_transparent`**, **`eventsForPair_of_differs`** — what is looked up.
* **`cache_transparent_iff`**.
-/

import Subduction.Keyhive.Check

set_option linter.unusedSectionVars false

namespace Subduction

open List

/-- **The uses of the cache** for a peer: total and digest, a full sync, a request, a response. -/
inductive CacheUse where
  | total (peer : KeyhivePeerId)
  | sync (peer : KeyhivePeerId)
  | request (peer : KeyhivePeerId) (found pending : List EventHash)
  | response (peer : KeyhivePeerId) (requested : List EventHash) (found : List (List UInt8))
      (responderTotal requesterTotal : Nat)

namespace KeyhiveProtocol

section Cache

variable {κ : Type} [Ed25519] [PublicAgent] [KeyhiveCore κ]

def withoutCache (node : KeyhiveProtocol κ) : KeyhiveProtocol κ := { node with cache := .new }

/-- What a computation returns and leaves, apart from the cache. -/
def decision (computation : KeyhiveM κ Unit) (node : KeyhiveProtocol κ) :
    Except KeyhiveError Unit × KeyhiveProtocol κ :=
  ((exec computation node).1, (exec computation node).2.withoutCache)

/-- The node decides with its cache as with an empty one. -/
def SameDecision [IterOrder KeyhivePeerId] (node : KeyhiveProtocol κ) : CacheUse → Prop
  | .total peer =>
    node.computeTotalAndDigestForPeer peer = node.withoutCache.computeTotalAndDigestForPeer peer
  | .sync peer =>
    decision (syncKeyhive (some peer)) node = decision (syncKeyhive (some peer)) node.withoutCache
  | .request peer found pending =>
    decision (handleSyncRequest peer found pending (node.cachedEventsForPairWithPeer peer)) node =
      decision (handleSyncRequest peer found pending
        (node.withoutCache.cachedEventsForPairWithPeer peer)) node.withoutCache
  | .response peer requested found responderTotal requesterTotal =>
    decision (handleSyncResponse peer requested found responderTotal requesterTotal
        (node.cachedEventsForPairWithPeer peer)) node =
      decision (handleSyncResponse peer requested found responderTotal requesterTotal
        (node.withoutCache.cachedEventsForPairWithPeer peer)) node.withoutCache

/-! ### What is looked up -/

section Lookup

variable {node : KeyhiveProtocol κ} {peer : KeyhivePeerId}

theorem cachedEvents_withoutCache (node : KeyhiveProtocol κ) (peer : KeyhivePeerId) :
    node.withoutCache.cachedEventsForPairWithPeer peer = none := rfl

variable (current : node.cache.Current node.keyhive)

include current

theorem cachedEvents_of_current : node.cachedEventsForPairWithPeer peer =
      if cachedSet node.keyhive node.peerId peer = ∅ then none
      else some (serialized κ (cachedSet node.keyhive node.peerId peer)) := by
  unfold cachedEventsForPairWithPeer
  rw [current.eventsForPeerPair_eq]
  rfl

theorem eventsForPair_of_transparent (transparent : PairTransparent node.keyhive node.peerId peer) :
    node.eventsForPair (node.cachedEventsForPairWithPeer peer) peer =
      getEventsForPeerPair node.keyhive node.peerId peer := by
  rw [cachedEvents_of_current current]
  by_cases nothing : cachedSet node.keyhive node.peerId peer = ∅
  · rw [if_pos nothing]
    rfl
  · rw [if_neg nothing, (cachedSet_agrees transparent).resolve_left nothing]
    rfl

/-- The computed events are not those of the given set: they are missing, or more. -/
inductive Differs (κ : Type) [KeyhiveCore κ] (events : Finset EventHash) :
    Except KeyhiveError (Option AgentHashMap) → Prop
  | invalid (error : KeyhiveError) : Differs κ events (.error error)
  | unknown : Differs κ events (.ok none)
  | more (others : Finset EventHash) (smaller : events ⊂ others) :
      Differs κ events (.ok (some (serialized κ others)))

theorem eventsForPair_of_differs (different : ¬ PairTransparent node.keyhive node.peerId peer) :
    ∃ events ≠ ∅, node.eventsForPair (node.cachedEventsForPairWithPeer peer) peer =
        .ok (some (serialized κ events)) ∧
      Differs κ events (getEventsForPeerPair node.keyhive node.peerId peer) := by
  obtain ⟨nonempty, computed⟩ := cachedSet_differs different
  refine ⟨_, nonempty, ?_, ?_⟩
  · rw [cachedEvents_of_current current, if_neg nonempty]
    rfl
  · rcases computed with failed | unknown | ⟨others, smaller, isOthers⟩
    · rw [failed]
      exact .invalid _
    · rw [unknown]
      exact .unknown
    · rw [isOthers]
      exact .more others smaller

end Lookup

/-! ### The four uses -/

section Uses

variable {node : KeyhiveProtocol κ} {peer : KeyhivePeerId}

theorem sameTotal_iff [IterOrder KeyhivePeerId] (current : node.cache.Current node.keyhive) :
    node.SameDecision (.total peer) ↔ PairTransparent node.keyhive node.peerId peer := by
  show (Except.map _ (Except.map _ (node.eventsForPair _ peer)) =
    Except.map _ (Except.map _ (getEventsForPeerPair node.keyhive node.peerId peer))) ↔ _
  by_cases transparent : PairTransparent node.keyhive node.peerId peer
  · rw [eventsForPair_of_transparent current transparent]
    exact ⟨fun _ => transparent, fun _ => rfl⟩
  · refine ⟨fun same => ?_, fun isTransparent => absurd isTransparent transparent⟩
    obtain ⟨events, nonempty, isCached, differs⟩ := eventsForPair_of_differs current transparent
    rw [isCached] at same
    have positive : 0 < events.card := Finset.card_pos.mpr (Finset.nonempty_iff_ne_empty.mpr nonempty)
    generalize getEventsForPeerPair node.keyhive node.peerId peer = computed at same differs
    cases differs with
    | invalid error => cases same
    | unknown =>
      have totals : events.card + node.getPendingHashes.length = 0 + node.getPendingHashes.length :=
        congrArg Prod.fst (Except.ok.inj same)
      omega
    | more others smaller =>
      have totals : events.card + node.getPendingHashes.length =
          others.card + node.getPendingHashes.length :=
        congrArg Prod.fst (Except.ok.inj same)
      have fewer := Finset.card_lt_card smaller
      omega

/-- The message that a full sync signs. -/
def syncMessage (node : KeyhiveProtocol κ) (targetId : KeyhivePeerId) :
    Except KeyhiveError (Option AgentHashMap) → Option KeyhiveSend
  | .error _ => none
  | .ok (some hashes) => some ⟨targetId,
      .syncRequest node.peerId targetId (ascendingList hashes.keys) node.getPendingHashes, false⟩
  | .ok none => some ⟨targetId, .requestContactCard node.peerId targetId, true⟩

/-- The message that answers a request. -/
def requestMessage (node : KeyhiveProtocol κ) (senderId : KeyhivePeerId)
    (found pending : List EventHash) :
    Except KeyhiveError (Option AgentHashMap) → Option KeyhiveSend
  | .error _ => none
  | .ok (some localEvents) => some ⟨senderId, node.responseTo senderId found pending localEvents, false⟩
  | .ok none => some ⟨senderId, .requestContactCard node.peerId senderId, true⟩

theorem outbox_syncWith (node : KeyhiveProtocol κ) {peer : KeyhivePeerId} (different : ¬ peer.sameIdentity node.peerId) :
    (exec (syncWith peer) node).2.outbox = node.outbox ++ (node.syncMessage peer
      (node.eventsForPair (node.cachedEventsForPairWithPeer peer) peer)).toList := by
  rw [exec_syncWith, if_neg different]
  cases node.eventsForPair (node.cachedEventsForPairWithPeer peer) peer with
  | error error => exact (append_nil _).symm
  | ok pair => cases pair <;> rfl

theorem outbox_handleSyncRequest (node : KeyhiveProtocol κ) (peer : KeyhivePeerId)
    (found pending : List EventHash) (cached : Option AgentHashMap) :
    (exec (handleSyncRequest peer found pending cached) node).2.outbox = node.outbox ++
      (node.requestMessage peer found pending (node.eventsForPair cached peer)).toList := by
  rw [exec_handleSyncRequest]
  cases node.eventsForPair cached peer with
  | error error => exact (append_nil _).symm
  | ok pair => cases pair <;> rfl

theorem message_eq_of_decision {first second : KeyhiveM κ Unit} {one other : KeyhiveProtocol κ}
    {sent sent' : Option KeyhiveSend} (same : decision first one = decision second other)
    (isSent : (exec first one).2.outbox = one.outbox ++ sent.toList)
    (isSent' : (exec second other).2.outbox = one.outbox ++ sent'.toList) : sent = sent' := by
  have outboxes : (exec first one).2.outbox = (exec second other).2.outbox :=
    congrArg (fun result => result.2.outbox) same
  rw [isSent, isSent'] at outboxes
  simpa using congrArg List.head? (append_cancel_left outboxes)

theorem syncMessage_ne {events : Finset EventHash} {computed : Except KeyhiveError (Option AgentHashMap)}
    (differs : Differs κ events computed) :
    node.syncMessage peer (.ok (some (serialized κ events))) ≠ node.syncMessage peer computed := by
  intro same
  cases differs with
  | invalid error => cases same
  | unknown => exact nomatch congrArg (Option.map KeyhiveSend.message) same
  | more others smaller =>
    have messages := congrArg KeyhiveSend.message (Option.some.inj same)
    injection messages with _ _ lists
    have sizes := congrArg List.length lists
    rw [length_ascendingList, length_ascendingList] at sizes
    exact absurd sizes (Finset.card_lt_card smaller).ne

theorem requestMessage_ne {events : Finset EventHash} {found pending : List EventHash}
    {computed : Except KeyhiveError (Option AgentHashMap)} (differs : Differs κ events computed) :
    node.requestMessage peer found pending (.ok (some (serialized κ events))) ≠
      node.requestMessage peer found pending computed := by
  intro same
  cases differs with
  | invalid error => cases same
  | unknown => exact nomatch congrArg (Option.map KeyhiveSend.message) same
  | more others smaller =>
    have messages := congrArg KeyhiveSend.message (Option.some.inj same)
    injection messages with _ _ _ _ totals
    have sizes : events.card + node.getPendingHashes.length =
        others.card + node.getPendingHashes.length := totals
    have fewer := Finset.card_lt_card smaller
    omega

theorem sameSync_iff [IterOrder KeyhivePeerId] (current : node.cache.Current node.keyhive) :
    node.SameDecision (.sync peer) ↔
      peer.sameIdentity node.peerId ∨ PairTransparent node.keyhive node.peerId peer := by
  show decision (syncWith peer) node = decision (syncWith peer) node.withoutCache ↔ _
  by_cases same : peer.sameIdentity node.peerId
  · refine ⟨fun _ => .inl same, fun _ => ?_⟩
    have same' : peer.sameIdentity node.withoutCache.peerId := same
    rw [decision, decision, exec_syncWith, exec_syncWith, if_pos same, if_pos same']
    rfl
  · have computed : node.withoutCache.eventsForPair
        (node.withoutCache.cachedEventsForPairWithPeer peer) peer =
          getEventsForPeerPair node.keyhive node.peerId peer := rfl
    by_cases transparent : PairTransparent node.keyhive node.peerId peer
    · refine ⟨fun _ => .inr transparent, fun _ => ?_⟩
      have different : ¬ peer.sameIdentity node.withoutCache.peerId := same
      rw [decision, decision, exec_syncWith, exec_syncWith, if_neg same, if_neg different,
        eventsForPair_of_transparent current transparent, computed]
      cases getEventsForPeerPair node.keyhive node.peerId peer with
      | error error => rfl
      | ok pair => cases pair <;> rfl
    · refine ⟨fun alike => ?_, fun either => (either.elim same transparent).elim⟩
      obtain ⟨events, _, isCached, differs⟩ := eventsForPair_of_differs current transparent
      have sent := outbox_syncWith node same
      have sent' := outbox_syncWith node.withoutCache same
      rw [isCached] at sent
      rw [computed] at sent'
      exact absurd (message_eq_of_decision alike sent sent') (syncMessage_ne differs)

theorem sameRequest_iff [IterOrder KeyhivePeerId] (current : node.cache.Current node.keyhive)
    (found pending : List EventHash) :
    node.SameDecision (.request peer found pending) ↔
      PairTransparent node.keyhive node.peerId peer := by
  have computed : node.withoutCache.eventsForPair
      (node.withoutCache.cachedEventsForPairWithPeer peer) peer =
        getEventsForPeerPair node.keyhive node.peerId peer := rfl
  by_cases transparent : PairTransparent node.keyhive node.peerId peer
  · refine ⟨fun _ => transparent, fun _ => ?_⟩
    show decision _ _ = decision _ _
    rw [decision, decision, exec_handleSyncRequest, exec_handleSyncRequest,
      eventsForPair_of_transparent current transparent, computed]
    cases getEventsForPeerPair node.keyhive node.peerId peer with
    | error error => rfl
    | ok pair => cases pair <;> rfl
  · refine ⟨fun alike => ?_, fun isTransparent => absurd isTransparent transparent⟩
    obtain ⟨events, _, isCached, differs⟩ := eventsForPair_of_differs current transparent
    have sent := outbox_handleSyncRequest node peer found pending
      (node.cachedEventsForPairWithPeer peer)
    have sent' := outbox_handleSyncRequest node.withoutCache peer found pending
      (node.withoutCache.cachedEventsForPairWithPeer peer)
    rw [isCached] at sent
    rw [computed] at sent'
    exact absurd (message_eq_of_decision alike sent sent') (requestMessage_ne differs)

end Uses

/-! ### Responses -/

section Responses

variable {node : KeyhiveProtocol κ} {peer : KeyhivePeerId}

/-- The keyhive after the events of a message were ingested. -/
def keyhiveAfter (keyhive : κ) (found : List (List UInt8)) : Option κ :=
  if found = [] then some keyhive else KeyhiveCore.ingestUnsortedStaticEvents keyhive found

/-- The events of a pair that are served without a cache; nothing if a name is no key. -/
def servedSet (keyhive : κ) (us peer : KeyhivePeerId) : Option (Finset EventHash) :=
  match getEventsForPeerPair keyhive us peer with
  | .error _ => none
  | .ok pair => some ((pair.map FinMap.keys).getD ∅)

/-- The bytes of the requested events of a set. -/
def opsOf (κ : Type) [KeyhiveCore κ] (events : Finset EventHash) (requested : List EventHash) :
    List (List UInt8) :=
  requested.filterMap (serialized κ events).get?

theorem opsOf_eq (κ : Type) [KeyhiveCore κ] (events : Finset EventHash) (requested : List EventHash) :
    opsOf κ events requested =
      (requested.filter fun hash => decide (hash ∈ events)).map (KeyhiveCore.serializeEvent κ) := by
  unfold opsOf serialized
  induction requested with
  | nil => rfl
  | cons hash requested ih =>
    have lookup := FinMap.get?_ofSet events (KeyhiveCore.serializeEvent κ) hash
    by_cases member : hash ∈ events
    · rw [if_pos member] at lookup
      rw [filterMap_cons_some lookup, filter_cons, if_pos (decide_eq_true member), map_cons, ih]
    · rw [if_neg member] at lookup
      rw [filterMap_cons_none lookup, filter_cons, if_neg (by simp [member]), ih]

/-- **The requested events of two sets** have the same bytes exactly when the sets agree on them. -/
theorem opsOf_eq_iff (κ : Type) [KeyhiveCore κ] {first second : Finset EventHash} {requested : List EventHash} :
    opsOf κ first requested = opsOf κ second requested ↔
      ∀ hash ∈ requested, hash ∈ first ↔ hash ∈ second := by
  rw [opsOf_eq, opsOf_eq, (map_injective_iff.mpr KeyhiveCore.serializeEvent_injective).eq_iff]
  constructor
  · intro same hash asked
    have members : hash ∈ requested.filter (fun hash => decide (hash ∈ first)) ↔
        hash ∈ requested.filter (fun hash => decide (hash ∈ second)) := by rw [same]
    simpa [asked] using members
  · intro agree
    exact filter_congr fun hash asked => by simp [agree hash asked]

/-- The message that answers a response. -/
def answerMessage (node : KeyhiveProtocol κ) (senderId : KeyhivePeerId)
    (responderTotal requesterTotal : Nat) (ops : List (List UInt8)) : KeyhiveMessage :=
  if ops ≠ [] then .syncOps node.peerId senderId ops responderTotal requesterTotal
  else .syncConfirmation node.peerId senderId requesterTotal

theorem answerMessage_injective (node : KeyhiveProtocol κ) (peer : KeyhivePeerId)
    {responderTotal requesterTotal : Nat} :
    Function.Injective (node.answerMessage peer responderTotal requesterTotal) := by
  intro first second same
  unfold answerMessage at same
  by_cases none : first = []
  · by_cases none' : second = []
    · rw [none, none']
    · rw [if_neg (not_not.mpr none), if_pos none'] at same
      cases same
  · by_cases none' : second = []
    · rw [if_pos none, if_neg (not_not.mpr none')] at same
      cases same
    · rw [if_pos none, if_pos none'] at same
      injection same

theorem outbox_answered (node : KeyhiveProtocol κ) (peer : KeyhivePeerId) (ops : List (List UInt8))
    (responderTotal requesterTotal : Nat) (advanced : Bool) :
    (node.answered peer ops responderTotal requesterTotal advanced).2.outbox = node.outbox ++
      [⟨peer, node.answerMessage peer responderTotal requesterTotal ops, false⟩] := by
  unfold answered answerMessage
  by_cases none : ops = []
  · rw [if_neg (not_not.mpr none), if_neg (not_not.mpr none), confirmed]
    cases node.sendResult peer <;> rfl
  · rw [if_pos none, if_pos none]
    cases node.sendResult peer <;> rfl

theorem answered_withoutCache (ops : List (List UInt8)) (responderTotal requesterTotal : Nat)
    (advanced : Bool) :
    ((node.answered peer ops responderTotal requesterTotal advanced).1,
      (node.answered peer ops responderTotal requesterTotal advanced).2.withoutCache) =
      node.withoutCache.answered peer ops responderTotal requesterTotal advanced := by
  have connection : node.withoutCache.sendResult peer = node.sendResult peer := rfl
  unfold answered
  by_cases none : ops = []
  · rw [if_neg (not_not.mpr none), if_neg (not_not.mpr none), confirmed, confirmed, connection]
    cases node.sendResult peer <;> rfl
  · rw [if_pos none, if_pos none, connection]
    cases node.sendResult peer <;> rfl

theorem ingested_eq (node : KeyhiveProtocol κ) (found : List (List UInt8)) :
    node.ingested found = match keyhiveAfter node.keyhive found with
      | none => .error .deserialization
      | some keyhive => .ok { node with keyhive := keyhive } := by
  unfold ingested keyhiveAfter
  by_cases nothing : found = []
  · simp [nothing]
  · cases KeyhiveCore.ingestUnsortedStaticEvents node.keyhive found <;> simp [nothing]

/-- **What a node decides on a response**, in terms of the operations it finds. -/
theorem decision_handleSyncResponse (node : KeyhiveProtocol κ) (peer : KeyhivePeerId)
    (requested : List EventHash) (found : List (List UInt8)) (responderTotal requesterTotal : Nat)
    (cached : Option AgentHashMap) :
    decision (handleSyncResponse peer requested found responderTotal requesterTotal cached) node =
      match keyhiveAfter node.keyhive found with
      | none => (.error .deserialization, node.withoutCache)
      | some keyhive =>
        let after : KeyhiveProtocol κ := { node.withoutCache with keyhive := keyhive }
        match after.requestedOps peer requested cached with
        | .error error => (.error error, after)
        | .ok ops => after.answered peer ops responderTotal requesterTotal (node.advancedTo after) := by
  rw [decision, exec_handleSyncResponse, ingested_eq]
  cases keyhiveAfter node.keyhive found with
  | none => rfl
  | some keyhive =>
    dsimp only
    have same : ({ node with keyhive := keyhive } : KeyhiveProtocol κ).requestedOps peer requested cached =
        ({ node.withoutCache with keyhive := keyhive } : KeyhiveProtocol κ).requestedOps peer requested
          cached := rfl
    rw [same]
    cases ({ node.withoutCache with keyhive := keyhive } : KeyhiveProtocol κ).requestedOps peer requested
      cached with
    | error error => rfl
    | ok ops => exact answered_withoutCache _ _ _ _

theorem requestedOps_some {requested : List EventHash} (asked : requested ≠ [])
    (events : Finset EventHash) :
    node.requestedOps peer requested (some (serialized κ events)) = .ok (opsOf κ events requested) := by
  rw [requestedOps, if_pos asked]
  rfl

theorem requestedOps_none {requested : List EventHash} (asked : requested ≠ []) :
    node.requestedOps peer requested none = match servedSet node.keyhive node.peerId peer with
      | none => .error .invalidIdentifier
      | some served => .ok (opsOf κ served requested) := by
  rw [requestedOps, if_pos asked, getEventBytesForRequested, servedSet]
  show Except.map _ (getEventsForPeerPair node.keyhive node.peerId peer) = _
  by_cases known : Known node.keyhive node.peerId ∧ Known node.keyhive peer
  · rw [getEventsForPeerPair_of_known known.1 known.2]
    rfl
  · rcases getEventsForPeerPair_of_unknown known with failed | unknown
    · rw [failed]
      rfl
    · rw [unknown]
      have nothing : opsOf κ ∅ requested = [] := by
        unfold opsOf
        exact filterMap_eq_nil_iff.mpr fun _ _ => rfl
      exact congrArg Except.ok nothing.symm

/-- **An answer from a set of events** is the one without a cache exactly when the set agrees with what
is served on the requested hashes. -/
theorem answered_eq_iff {requested : List EventHash} {events : Finset EventHash}
    {responderTotal requesterTotal : Nat} {advanced : Bool} :
    node.answered peer (opsOf κ events requested) responderTotal requesterTotal advanced =
        (match (match servedSet node.keyhive node.peerId peer with
            | none => Except.error KeyhiveError.invalidIdentifier
            | some served => Except.ok (opsOf κ served requested)) with
          | .error error => (.error error, node)
          | .ok ops => node.answered peer ops responderTotal requesterTotal advanced) ↔
      ∃ served, servedSet node.keyhive node.peerId peer = some served ∧
        ∀ hash ∈ requested, hash ∈ events ↔ hash ∈ served := by
  have signs (ops : List (List UInt8)) :=
    outbox_answered node peer ops responderTotal requesterTotal advanced
  cases served : servedSet node.keyhive node.peerId peer with
  | none =>
    refine ⟨fun alike => ?_, fun ⟨_, impossible, _⟩ => ?_⟩
    · have outboxes := congrArg (fun result => result.2.outbox) alike
      rw [signs] at outboxes
      exact absurd (congrArg List.length outboxes) (by simp)
    · cases impossible
  | some found =>
    refine ⟨fun alike => ⟨found, rfl, (opsOf_eq_iff κ).mp ?_⟩, fun ⟨other, isOther, agree⟩ => ?_⟩
    · have outboxes := congrArg (fun result => result.2.outbox) alike
      rw [signs, signs] at outboxes
      have sends := List.cons.inj (append_cancel_left outboxes)
      exact answerMessage_injective node peer (congrArg KeyhiveSend.message sends.1)
    · obtain rfl := Option.some.inj isOther
      rw [(opsOf_eq_iff κ).mpr agree]

/-- **When a response is handled alike**: it asks for nothing, its events are refused, nothing is cached,
or what it asks for is cached exactly where the pair has it once the events are ingested. -/
def ResponseTransparent (keyhive : κ) (us peer : KeyhivePeerId) (requested : List EventHash)
    (found : List (List UInt8)) : Prop :=
  requested = [] ∨ cachedSet keyhive us peer = ∅ ∨ ∀ after, keyhiveAfter keyhive found = some after →
    ∃ served, servedSet after us peer = some served ∧
      ∀ hash ∈ requested, hash ∈ cachedSet keyhive us peer ↔ hash ∈ served

theorem sameResponse_iff [IterOrder KeyhivePeerId] (current : node.cache.Current node.keyhive)
    (requested : List EventHash) (found : List (List UInt8)) (responderTotal requesterTotal : Nat) :
    node.SameDecision (.response peer requested found responderTotal requesterTotal) ↔
      ResponseTransparent node.keyhive node.peerId peer requested found := by
  show decision _ _ = decision _ _ ↔ _
  rw [decision_handleSyncResponse, decision_handleSyncResponse, cachedEvents_withoutCache,
    cachedEvents_of_current current]
  show (match keyhiveAfter node.keyhive found with
    | none => _
    | some keyhive => _) = (match keyhiveAfter node.keyhive found with
    | none => _
    | some keyhive => _) ↔ _
  by_cases nothing : cachedSet node.keyhive node.peerId peer = ∅
  · rw [if_pos nothing]
    exact ⟨fun _ => .inr (.inl nothing), fun _ => rfl⟩
  rw [if_neg nothing]
  by_cases asked : requested = []
  · refine ⟨fun _ => .inl asked, fun _ => ?_⟩
    rw [asked]
    rfl
  unfold ResponseTransparent
  cases isAfter : keyhiveAfter node.keyhive found with
  | none =>
    refine ⟨fun _ => .inr (.inr fun after impossible => ?_), fun _ => rfl⟩
    cases impossible
  | some keyhive =>
    dsimp only
    rw [requestedOps_some asked, requestedOps_none asked]
    let after : KeyhiveProtocol κ := { node.withoutCache with keyhive := keyhive }
    show after.answered peer (opsOf κ _ requested) responderTotal requesterTotal (node.advancedTo after) =
      (match (match servedSet after.keyhive after.peerId peer with
          | none => Except.error KeyhiveError.invalidIdentifier
          | some served => Except.ok (opsOf κ served requested)) with
        | .error error => (.error error, after)
        | .ok ops => after.answered peer ops responderTotal requesterTotal (node.advancedTo after)) ↔ _
    rw [answered_eq_iff]
    constructor
    · intro agree
      refine .inr (.inr fun other isOther => ?_)
      rw [← Option.some.inj isOther]
      exact agree
    · rintro (none | none | agree)
      · exact absurd none asked
      · exact absurd none nothing
      · exact agree keyhive rfl

/-- **When a node decides as it would without a cache.** -/
def Transparent (keyhive : κ) (us : KeyhivePeerId) : CacheUse → Prop
  | .total peer => PairTransparent keyhive us peer
  | .sync peer => peer.sameIdentity us ∨ PairTransparent keyhive us peer
  | .request peer _ _ => PairTransparent keyhive us peer
  | .response peer requested found _ _ => ResponseTransparent keyhive us peer requested found

end Responses

end Cache

attribute [local instance] IterOrder.ascending publicZero shownKeys

/-- A node whose cache was refreshed when it had one operation, for runs on fixed inputs. -/
def grownPair [Ed25519] [PublicAgent] (us them : Identifier) (earlier : PairKeyhive) :
    KeyhiveProtocol PairKeyhive :=
  { ofPair us them {⟨1⟩, ⟨2⟩} ∅ with cache := [earlier].foldl PeriodicEventCache.refresh .new }

theorem cache_grownPair [Ed25519] [PublicAgent] (us them : Identifier) (earlier : PairKeyhive) :
    (grownPair us them earlier).cache = [earlier].foldl PeriodicEventCache.refresh .new := rfl

def onePair : @PairKeyhive shownKeys :=
  ⟨shownId 1, shownId 2, {⟨1⟩}, ∅⟩

end KeyhiveProtocol

end Subduction
