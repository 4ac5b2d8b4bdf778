/-
**The events of a pair of peers, computed and cached.**

The events that two peers exchange are those of the public agent and those that both can see. They are
computed from the keyhive, or taken from a cache that is rebuilt when the number of operations changed.
The computation tells an unknown peer from a pair without events; the cache has the public events for
every pair it does not know.

* **`PeriodicEventCache.current_refresh`**, **`Coherent.of_history`** — after a refresh the cache is that
  of the keyhive, whatever was cached before.
* **`PeriodicEventCache.Current.eventsForPeerPair_eq`** — the set that is cached for a pair.
* **`cachedSet_agrees`**, **`cachedSet_differs`** — when the two ways give the same.
-/

import Subduction.Keyhive.Message

set_option linter.unusedSectionVars false

namespace Subduction

open KeyhivePeerId Option Finset

/-- `Public`: the well-known agent whose events everyone may see. -/
class PublicAgent [Ed25519] where
  publicId : Identifier

/-- **What the protocol sees of a keyhive**: its agents with the events they can reach, the pending
events, the number of operations, and how a state changes when events or a contact card come in. Events
are determined by their hashes, and what is serialized determines the event. -/
class KeyhiveCore (κ : Type) [Ed25519] where
  agents : κ → FinMap Identifier (Finset EventHash)
  pendingEventHashes : κ → List EventHash
  totalOps : κ → Nat
  serializeEvent : EventHash → List UInt8
  serializeEvent_injective : Function.Injective serializeEvent
  ingestUnsortedStaticEvents : κ → List (List UInt8) → Option κ
  receiveContactCard : κ → KeyhivePeerId → Option κ

inductive KeyhiveError where
  | send
  | senderMismatch (expected actual : KeyhivePeerId)
  | unknownPeer (peer : KeyhivePeerId)
  | invalidIdentifier
  | receiveContactCard
  | deserialization
deriving DecidableEq

section Events

variable {κ : Type} [Ed25519] [PublicAgent] [KeyhiveCore κ]

/-- `static_events_for_agent`. -/
def staticEventsForAgent (keyhive : κ) (id : Identifier) : Finset EventHash :=
  ((KeyhiveCore.agents keyhive).get? id).getD ∅

/-- The events of the public agent; none if there is no such agent. -/
def publicEvents (keyhive : κ) : Finset EventHash := staticEventsForAgent keyhive PublicAgent.publicId

/-- The events of a pair of agents: the public ones, and those that both reach. -/
def pairEvents (keyhive : κ) (ours theirs : Identifier) : Finset EventHash :=
  publicEvents keyhive ∪ staticEventsForAgent keyhive ours ∩ staticEventsForAgent keyhive theirs

/-- A set of events with their bytes. -/
def serialized (κ : Type) [KeyhiveCore κ] (events : Finset EventHash) : AgentHashMap :=
  .ofSet events (KeyhiveCore.serializeEvent κ)

/-- `get_events_for_peer_pair`: nothing if one of the agents is unknown. -/
def getEventsForPeerPair (keyhive : κ) (us peer : KeyhivePeerId) :
    Except KeyhiveError (Option AgentHashMap) :=
  match us.toIdentifier, peer.toIdentifier with
  | some ours, some theirs =>
    if ours ∈ (KeyhiveCore.agents keyhive).keys ∧ theirs ∈ (KeyhiveCore.agents keyhive).keys then
      .ok (some (serialized κ (pairEvents keyhive ours theirs)))
    else .ok none
  | _, _ => .error .invalidIdentifier

def allEvents (keyhive : κ) : Finset EventHash :=
  (KeyhiveCore.agents keyhive).keys.biUnion (staticEventsForAgent keyhive)

theorem staticEventsForAgent_subset (keyhive : κ) (id : Identifier) :
    staticEventsForAgent keyhive id ⊆ allEvents keyhive := by
  intro hash member
  refine mem_biUnion.mpr ⟨id, ?_, member⟩
  by_contra unknown
  rw [staticEventsForAgent, FinMap.get?_eq_none.mpr unknown] at member
  exact absurd member (notMem_empty _)

/-- `AllAgentEvents`. -/
structure AllAgentEvents where
  agentHashes : FinMap KeyhivePeerId (Finset EventHash)
  eventData : AgentHashMap

/-- `all_agent_events`: the agents that have events, under their names, and the bytes of the events that
are not to be skipped. -/
def allAgentEvents (keyhive : κ) (skipSerialization : Finset EventHash) : AllAgentEvents where
  agentHashes := ((KeyhiveCore.agents keyhive).retain fun _ events => decide (events ≠ ∅)).reindex
    KeyhivePeerId.fromIdentifier KeyhivePeerId.original KeyhivePeerId.original_eq_some
  eventData := serialized κ (allEvents keyhive \ skipSerialization)

end Events

/-- **The periodic event cache.** -/
structure PeriodicEventCache where
  agentHashes : FinMap KeyhivePeerId (Finset EventHash)
  publicHashes : Finset EventHash
  publicMap : AgentHashMap
  eventData : AgentHashMap
  lastTotalOps : Option Nat

namespace PeriodicEventCache

/-- `PeriodicEventCache::new`. -/
def new : PeriodicEventCache := ⟨∅, ∅, ∅, ∅, none⟩

/-- `build_public_map`. -/
def buildPublicMap (publicHashes : Finset EventHash) (eventData : AgentHashMap) : AgentHashMap :=
  eventData.retain fun hash _ => decide (hash ∈ publicHashes)

/-- `events_for_peer_pair`: the public events, with those of both peers where both are cached. -/
def eventsForPeerPair (cache : PeriodicEventCache) (a b : KeyhivePeerId) : AgentHashMap :=
  match cache.agentHashes.get? a, cache.agentHashes.get? b with
  | some ha, some hb =>
    let private' := cache.eventData.retain fun hash _ =>
      decide (hash ∈ ha ∩ hb ∧ hash ∉ cache.publicMap.keys)
    if private'.keys = ∅ then cache.publicMap else cache.publicMap.union private'
  | _, _ => cache.publicMap

variable {κ : Type} [Ed25519] [PublicAgent] [KeyhiveCore κ]

/-- `PeriodicEventCache::refresh`: nothing is done if the number of operations is the last one seen. -/
def refresh (cache : PeriodicEventCache) (keyhive : κ) : PeriodicEventCache :=
  if cache.lastTotalOps = some (KeyhiveCore.totalOps keyhive) then cache
  else
    let events := allAgentEvents keyhive cache.eventData.keys
    let eventData := cache.eventData.union events.eventData
    let publicPeer := KeyhivePeerId.fromIdentifier PublicAgent.publicId
    let newPublic := (events.agentHashes.get? publicPeer).getD ∅
    { agentHashes := events.agentHashes.erase publicPeer
      publicHashes := newPublic
      publicMap := buildPublicMap newPublic eventData
      eventData := eventData
      lastTotalOps := some (KeyhiveCore.totalOps keyhive) }

/-! ### The cache after a refresh -/

/-- The bytes in the cache are those of their events. -/
def DataSound (κ : Type) [KeyhiveCore κ] (cache : PeriodicEventCache) : Prop :=
  ∀ hash bytes, cache.eventData.get? hash = some bytes → bytes = KeyhiveCore.serializeEvent κ hash

/-- **The cache is that of the keyhive.** -/
structure Current (cache : PeriodicEventCache) (keyhive : κ) : Prop where
  agents : cache.agentHashes = (allAgentEvents keyhive ∅).agentHashes.erase
    (KeyhivePeerId.fromIdentifier PublicAgent.publicId)
  publicMap : cache.publicMap = serialized κ (publicEvents keyhive)
  data : ∀ hash ∈ allEvents keyhive,
    cache.eventData.get? hash = some (KeyhiveCore.serializeEvent κ hash)

/-- **The cache may be refreshed from the keyhive**: its bytes are right, and if the number of operations
is the last one seen it is that of the keyhive. -/
structure Coherent (cache : PeriodicEventCache) (keyhive : κ) : Prop where
  data : cache.DataSound κ
  current : cache.lastTotalOps = some (KeyhiveCore.totalOps keyhive) → cache.Current keyhive

theorem coherent_new (keyhive : κ) : Coherent new keyhive := by
  refine ⟨fun hash bytes found => ?_, fun seen => ?_⟩
  · cases found
  · cases seen

theorem get?_agentHashes (keyhive : κ) (skip : Finset EventHash) (peer : KeyhivePeerId) :
    (allAgentEvents keyhive skip).agentHashes.get? peer = peer.original.bind fun id =>
        ((KeyhiveCore.agents keyhive).get? id).filter fun events => decide (events ≠ ∅) := rfl

theorem getD_agentHashes_public (keyhive : κ) (skip : Finset EventHash) :
    ((allAgentEvents keyhive skip).agentHashes.get?
      (KeyhivePeerId.fromIdentifier PublicAgent.publicId)).getD ∅ = publicEvents keyhive := by
  rw [get?_agentHashes, (original_eq_some _ _).mpr rfl, bind_some, publicEvents,
    staticEventsForAgent]
  cases (KeyhiveCore.agents keyhive).get? PublicAgent.publicId with
  | none => rfl
  | some events =>
    by_cases isEmpty : events = ∅
    · rw [filter_some_neg (by simp [isEmpty]), isEmpty]
      rfl
    · rw [filter_some_pos (by simp [isEmpty])]

variable {cache : PeriodicEventCache}

theorem get?_union_serialized (sound : cache.DataSound κ) (keyhive : κ)
    {hash : EventHash} (member : hash ∈ allEvents keyhive) :
    (cache.eventData.union (allAgentEvents keyhive cache.eventData.keys).eventData).get? hash =
      some (KeyhiveCore.serializeEvent κ hash) := by
  rw [FinMap.get?_union]
  cases stored : cache.eventData.get? hash with
  | some bytes => rw [some_or, sound hash bytes stored]
  | none =>
    have missing := FinMap.get?_eq_none.mp stored
    show (serialized κ (allEvents keyhive \ cache.eventData.keys)).get? hash = _
    rw [serialized, FinMap.get?_ofSet, if_pos (mem_sdiff.mpr ⟨member, missing⟩)]

theorem dataSound_refresh (sound : cache.DataSound κ) (keyhive : κ) :
    (cache.refresh keyhive).DataSound κ := by
  unfold refresh
  split
  · exact sound
  · intro hash bytes found
    replace found : (cache.eventData.union
      (allAgentEvents keyhive cache.eventData.keys).eventData).get? hash = some bytes := found
    rw [FinMap.get?_union, or_eq_some_iff] at found
    rcases found with stored | ⟨_, added⟩
    · exact sound hash bytes stored
    · replace added : (serialized κ (allEvents keyhive \ cache.eventData.keys)).get? hash = some bytes :=
        added
      rw [serialized, FinMap.get?_ofSet] at added
      split at added
      · exact (Option.some.inj added).symm
      · cases added

theorem current_refresh {keyhive : κ} (coherent : cache.Coherent keyhive) :
    (cache.refresh keyhive).Current keyhive := by
  by_cases seen : cache.lastTotalOps = some (KeyhiveCore.totalOps keyhive)
  · rw [refresh, if_pos seen]
    exact coherent.current seen
  · rw [refresh, if_neg seen]
    refine ⟨rfl, ?_, fun hash member => get?_union_serialized coherent.data keyhive member⟩
    show buildPublicMap _ _ = _
    rw [getD_agentHashes_public]
    ext1 hash
    rw [buildPublicMap, FinMap.get?_retain, serialized, FinMap.get?_ofSet]
    by_cases member : hash ∈ publicEvents keyhive
    · rw [get?_union_serialized coherent.data keyhive (staticEventsForAgent_subset _ _ member),
        if_pos member]
      exact filter_some_pos (decide_eq_true member)
    · rw [if_neg member, filter_eq_none_iff]
      exact fun _ _ => by simp [member]

theorem lastTotalOps_refresh (cache : PeriodicEventCache) (keyhive : κ) :
    (cache.refresh keyhive).lastTotalOps = some (KeyhiveCore.totalOps keyhive) := by
  unfold refresh
  split
  · assumption
  · rfl

/-- The cache that a keyhive left may be refreshed from another one, unless the two have the same
number of operations and differ. -/
theorem coherent_of_refresh {keyhive next : κ} (coherent : cache.Coherent keyhive)
    (told : KeyhiveCore.totalOps next = KeyhiveCore.totalOps keyhive → next = keyhive) :
    (cache.refresh keyhive).Coherent next := by
  refine ⟨dataSound_refresh coherent.data keyhive, fun seen => ?_⟩
  rw [lastTotalOps_refresh] at seen
  rw [told (Option.some.inj seen).symm]
  exact current_refresh coherent

theorem Coherent.of_history (history : List κ) {keyhive : κ} (told : ∀ earlier ∈ history,
      KeyhiveCore.totalOps earlier = KeyhiveCore.totalOps keyhive → earlier = keyhive) :
    (history.foldl refresh new).Coherent keyhive := by
  -- the cache is that of the keyhive of the history whose number of operations was seen last
  suffices recorded : ∀ (history : List κ), (history.foldl refresh new).DataSound κ ∧
      ((history.foldl refresh new).lastTotalOps = none ∨ ∃ source ∈ history,
        (history.foldl refresh new).lastTotalOps = some (KeyhiveCore.totalOps source) ∧
        (history.foldl refresh new).Current source) by
    obtain ⟨data, seen⟩ := recorded history
    refine ⟨data, fun isTotal => ?_⟩
    rcases seen with never | ⟨source, member, last, current⟩
    · exact nomatch never.symm.trans isTotal
    · rw [← told source member (Option.some.inj (last.symm.trans isTotal))]
      exact current
  intro history
  induction history using List.reverseRecOn with
  | nil => exact ⟨(coherent_new keyhive).data, .inl rfl⟩
  | append_singleton history next ih =>
    obtain ⟨data, seen⟩ := ih
    rw [List.foldl_append, List.foldl_cons, List.foldl_nil]
    refine ⟨dataSound_refresh data next, .inr ?_⟩
    by_cases same : (history.foldl refresh new).lastTotalOps = some (KeyhiveCore.totalOps next)
    · rw [refresh, if_pos same]
      rcases seen with never | ⟨source, member, last, current⟩
      · exact nomatch never.symm.trans same
      · exact ⟨source, List.mem_append_left _ member, last, current⟩
    · exact ⟨next, List.mem_append_right _ List.mem_cons_self, lastTotalOps_refresh _ _,
        current_refresh ⟨data, fun isTotal => absurd isTotal same⟩⟩

end PeriodicEventCache

/-! ### What is cached for a pair -/

section Pairs

variable {κ : Type} [Ed25519] [PublicAgent] [KeyhiveCore κ]

/-- The events of a peer that a current cache has: the public agent is kept apart, and a name with a
suffix is not found. -/
def cachedHashes (keyhive : κ) (peer : KeyhivePeerId) : Option (Finset EventHash) :=
  ((allAgentEvents keyhive ∅).agentHashes.erase
    (KeyhivePeerId.fromIdentifier PublicAgent.publicId)).get? peer

/-- The events that a current cache has for a pair. -/
def cachedSet (keyhive : κ) (us peer : KeyhivePeerId) : Finset EventHash :=
  match cachedHashes keyhive us, cachedHashes keyhive peer with
  | some ours, some theirs => publicEvents keyhive ∪ ours ∩ theirs
  | _, _ => publicEvents keyhive

theorem publicEvents_subset_cachedSet (keyhive : κ) (us peer : KeyhivePeerId) :
    publicEvents keyhive ⊆ cachedSet keyhive us peer := by
  unfold cachedSet
  split
  · exact subset_union_left
  · exact Finset.Subset.refl _

variable {keyhive : κ} {peer us : KeyhivePeerId}

theorem cachedHashes_eq_some {events : Finset EventHash} : cachedHashes keyhive peer = some events ↔
      ∃ id, KeyhivePeerId.fromIdentifier id = peer ∧ id ≠ PublicAgent.publicId ∧
        (KeyhiveCore.agents keyhive).get? id = some events ∧ events ≠ ∅ := by
  rw [cachedHashes, FinMap.get?_erase, PeriodicEventCache.get?_agentHashes]
  constructor
  · intro found
    split at found
    · cases found
    · rename_i notPublic
      obtain ⟨id, isName, kept⟩ := bind_eq_some_iff.mp found
      obtain ⟨stored, nonempty⟩ := filter_eq_some_iff.mp kept
      have name := (original_eq_some _ _).mp isName
      refine ⟨id, name, fun isPublic => notPublic ?_, stored, of_decide_eq_true nonempty⟩
      rw [← name, isPublic]
  · rintro ⟨id, rfl, notPublic, stored, nonempty⟩
    rw [if_neg, (original_eq_some _ _).mpr rfl, bind_some, stored]
    · exact filter_some_pos (decide_eq_true nonempty)
    · intro same
      have isPublic := (original_eq_some id _).mpr same
      rw [(original_eq_some _ _).mpr rfl] at isPublic
      exact notPublic (Option.some.inj isPublic).symm

theorem PeriodicEventCache.Current.eventsForPeerPair_eq {cache : PeriodicEventCache}
    (current : cache.Current keyhive) (us peer : KeyhivePeerId) :
    cache.eventsForPeerPair us peer = serialized κ (cachedSet keyhive us peer) := by
  rw [eventsForPeerPair, cachedSet, current.agents]
  show (match cachedHashes keyhive us, cachedHashes keyhive peer with
    | some ha, some hb => _
    | _, _ => _) = _
  cases ours : cachedHashes keyhive us with
  | none => exact current.publicMap
  | some ha =>
    cases theirs : cachedHashes keyhive peer with
    | none => exact current.publicMap
    | some hb =>
      obtain ⟨id, _, _, stored, _⟩ := cachedHashes_eq_some.mp ours
      have reached : ∀ hash ∈ ha, hash ∈ allEvents keyhive := fun hash member => by
        refine staticEventsForAgent_subset keyhive id ?_
        rw [staticEventsForAgent, stored]
        exact member
      set shared := cache.eventData.retain fun hash _ =>
        decide (hash ∈ ha ∩ hb ∧ hash ∉ cache.publicMap.keys) with isShared
      have lookup : ∀ hash, (cache.publicMap.union shared).get? hash =
          (serialized κ (publicEvents keyhive ∪ ha ∩ hb)).get? hash := by
        intro hash
        rw [FinMap.get?_union, isShared, FinMap.get?_retain, current.publicMap, serialized, serialized,
          FinMap.get?_ofSet, FinMap.get?_ofSet]
        by_cases isPublic : hash ∈ publicEvents keyhive
        · rw [if_pos isPublic, if_pos (mem_union_left _ isPublic), some_or]
        · rw [if_neg isPublic, none_or]
          by_cases both : hash ∈ ha ∩ hb
          · rw [current.data hash (reached hash (mem_inter.mp both).1),
              if_pos (mem_union_right _ both)]
            exact filter_some_pos (decide_eq_true ⟨both, isPublic⟩)
          · rw [if_neg, filter_eq_none_iff]
            · exact fun _ _ => by simp [both]
            · exact fun either => (mem_union.mp either).elim isPublic both
      show (if shared.keys = ∅ then cache.publicMap else cache.publicMap.union shared) = _
      by_cases nothing : shared.keys = ∅
      · rw [if_pos nothing]
        ext1 hash
        have missing : shared.get? hash = none := by
          rw [FinMap.get?_eq_none, nothing]
          exact notMem_empty hash
        rw [← lookup hash, FinMap.get?_union, missing, or_none]
      · rw [if_neg nothing]
        exact FinMap.ext lookup

def Known (keyhive : κ) (peer : KeyhivePeerId) : Prop :=
  ∃ id, peer.toIdentifier = some id ∧ id ∈ (KeyhiveCore.agents keyhive).keys

instance (keyhive : κ) (peer : KeyhivePeerId) : Decidable (Known keyhive peer) :=
  decidable_of_iff (∃ id ∈ peer.toIdentifier, id ∈ (KeyhiveCore.agents keyhive).keys) Iff.rfl

/-- The events that the agent of a name reaches. -/
def eventsOf (keyhive : κ) (peer : KeyhivePeerId) : Finset EventHash :=
  match peer.toIdentifier with
  | some id => staticEventsForAgent keyhive id
  | none => ∅

/-- **When the cache gives what is computed**: there are no public events, or both peers are known and
either both names are without suffix or the pair has no event beyond the public ones. -/
def PairTransparent (keyhive : κ) (us peer : KeyhivePeerId) : Prop :=
  publicEvents keyhive = ∅ ∨ Known keyhive us ∧ Known keyhive peer ∧
    (us.suffix = none ∧ peer.suffix = none ∨
      eventsOf keyhive us ∩ eventsOf keyhive peer ⊆ publicEvents keyhive)

theorem eventsOf_eq {id : Identifier}
    (isPeer : peer.toIdentifier = some id) : eventsOf keyhive peer = staticEventsForAgent keyhive id := by
  rw [eventsOf, isPeer]

theorem getEventsForPeerPair_of_known (ours : Known keyhive us) (theirs : Known keyhive peer) :
    getEventsForPeerPair keyhive us peer = .ok (some (serialized κ
      (publicEvents keyhive ∪ eventsOf keyhive us ∩ eventsOf keyhive peer))) := by
  obtain ⟨ourId, isUs, ourAgent⟩ := ours
  obtain ⟨theirId, isPeer, theirAgent⟩ := theirs
  rw [getEventsForPeerPair, isUs, isPeer, eventsOf_eq isUs, eventsOf_eq isPeer]
  exact if_pos ⟨ourAgent, theirAgent⟩

theorem getEventsForPeerPair_of_unknown (unknown : ¬ (Known keyhive us ∧ Known keyhive peer)) :
    getEventsForPeerPair keyhive us peer = .error .invalidIdentifier ∨
      getEventsForPeerPair keyhive us peer = .ok none := by
  unfold getEventsForPeerPair
  split
  · rename_i ours theirs isUs isPeer
    right
    refine if_neg fun both => unknown ⟨⟨ours, isUs, both.1⟩, ⟨theirs, isPeer, both.2⟩⟩
  · exact .inl rfl

theorem cachedHashes_facts {events : Finset EventHash}
    (cached : cachedHashes keyhive peer = some events) :
    Known keyhive peer ∧ peer.suffix = none ∧ events = eventsOf keyhive peer := by
  obtain ⟨id, rfl, _, stored, _⟩ := cachedHashes_eq_some.mp cached
  have isPeer : (KeyhivePeerId.fromIdentifier id).toIdentifier = some id :=
    toIdentifier_eq_some.mpr rfl
  refine ⟨⟨id, isPeer, FinMap.mem_keys_of_get? stored⟩, rfl, ?_⟩
  rw [eventsOf_eq isPeer, staticEventsForAgent, stored, getD_some]

theorem cachedHashes_of_known (known : Known keyhive peer) (plain : peer.suffix = none) :
    cachedHashes keyhive peer = some (eventsOf keyhive peer) ∨
      eventsOf keyhive peer ⊆ publicEvents keyhive := by
  obtain ⟨id, isPeer, agent⟩ := known
  obtain ⟨events, stored⟩ := FinMap.mem_keys.mp agent
  have name : KeyhivePeerId.fromIdentifier id = peer := by
    rw [← original_eq_some, KeyhivePeerId.original, if_pos plain, isPeer]
  have isEvents : eventsOf keyhive peer = events := by
    rw [eventsOf_eq isPeer, staticEventsForAgent, stored, getD_some]
  by_cases isPublic : id = PublicAgent.publicId
  · right
    rw [eventsOf_eq isPeer, isPublic]
    exact Finset.Subset.refl _
  · by_cases nothing : events = ∅
    · right
      rw [isEvents, nothing]
      exact empty_subset _
    · left
      rw [isEvents]
      exact cachedHashes_eq_some.mpr ⟨id, name, isPublic, stored, nothing⟩

theorem cachedSet_cases (keyhive : κ) (us peer : KeyhivePeerId) :
    cachedSet keyhive us peer = publicEvents keyhive ∨
      (Known keyhive us ∧ us.suffix = none) ∧ (Known keyhive peer ∧ peer.suffix = none) ∧
        cachedSet keyhive us peer =
          publicEvents keyhive ∪ eventsOf keyhive us ∩ eventsOf keyhive peer := by
  unfold cachedSet
  split
  · rename_i ours theirs isUs isPeer
    obtain ⟨ourKnown, ourPlain, rfl⟩ := cachedHashes_facts isUs
    obtain ⟨theirKnown, theirPlain, rfl⟩ := cachedHashes_facts isPeer
    exact .inr ⟨⟨ourKnown, ourPlain⟩, ⟨theirKnown, theirPlain⟩, rfl⟩
  · exact .inl rfl

/-- **Two known peers without suffixes** have the computed set in the cache. -/
theorem cachedSet_of_known (ours : Known keyhive us)
    (theirs : Known keyhive peer) (ourPlain : us.suffix = none) (theirPlain : peer.suffix = none) :
    cachedSet keyhive us peer =
      publicEvents keyhive ∪ eventsOf keyhive us ∩ eventsOf keyhive peer := by
  have absorbed (small : eventsOf keyhive us ∩ eventsOf keyhive peer ⊆ publicEvents keyhive) :
      cachedSet keyhive us peer =
        publicEvents keyhive ∪ eventsOf keyhive us ∩ eventsOf keyhive peer := by
    rcases cachedSet_cases keyhive us peer with isPublic | ⟨_, _, isPair⟩
    · rw [isPublic, union_eq_left.mpr small]
    · exact isPair
  rcases cachedHashes_of_known ours ourPlain with isUs | small
  · rcases cachedHashes_of_known theirs theirPlain with isPeer | small
    · rw [cachedSet, isUs, isPeer]
    · exact absorbed (inter_subset_right.trans small)
  · exact absorbed (inter_subset_left.trans small)

theorem cachedSet_agrees (transparent : PairTransparent keyhive us peer) :
    cachedSet keyhive us peer = ∅ ∨ getEventsForPeerPair keyhive us peer =
      .ok (some (serialized κ (cachedSet keyhive us peer))) := by
  rcases transparent with nothing | ⟨ours, theirs, ⟨ourPlain, theirPlain⟩ | small⟩
  · rcases cachedSet_cases keyhive us peer with isPublic | ⟨⟨ours, _⟩, ⟨theirs, _⟩, isPair⟩
    · exact .inl (isPublic.trans nothing)
    · rw [isPair]
      exact .inr (getEventsForPeerPair_of_known ours theirs)
  · rw [cachedSet_of_known ours theirs ourPlain theirPlain]
    exact .inr (getEventsForPeerPair_of_known ours theirs)
  · right
    rw [getEventsForPeerPair_of_known ours theirs]
    rcases cachedSet_cases keyhive us peer with isPublic | ⟨_, _, isPair⟩
    · rw [isPublic, union_eq_left.mpr small]
    · rw [isPair]

theorem cachedSet_differs (different : ¬ PairTransparent keyhive us peer) :
    cachedSet keyhive us peer ≠ ∅ ∧
      (getEventsForPeerPair keyhive us peer = .error .invalidIdentifier ∨
        getEventsForPeerPair keyhive us peer = .ok none ∨
        ∃ events, cachedSet keyhive us peer ⊂ events ∧
          getEventsForPeerPair keyhive us peer = .ok (some (serialized κ events))) := by
  obtain ⟨somePublic, rest⟩ := not_or.mp different
  refine ⟨fun nothing => somePublic ?_, ?_⟩
  · exact Finset.subset_empty.mp (nothing ▸ publicEvents_subset_cachedSet keyhive us peer)
  · by_cases known : Known keyhive us ∧ Known keyhive peer
    · obtain ⟨suffixed, more⟩ := not_or.mp fun either => rest ⟨known.1, known.2, either⟩
      refine .inr (.inr ⟨_, ?_, getEventsForPeerPair_of_known known.1 known.2⟩)
      rcases cachedSet_cases keyhive us peer with isPublic | ⟨⟨_, ourPlain⟩, ⟨_, theirPlain⟩, _⟩
      · rw [isPublic]
        refine Finset.ssubset_iff_subset_ne.mpr ⟨Finset.subset_union_left, fun same => more ?_⟩
        exact Finset.union_eq_left.mp same.symm
      · exact absurd ⟨ourPlain, theirPlain⟩ suffixed
    · rcases getEventsForPeerPair_of_unknown known with failed | unknown
      · exact .inl failed
      · exact .inr (.inl unknown)

end Pairs

end Subduction
