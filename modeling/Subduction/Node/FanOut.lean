/-
**What a node sends on.**

An item that a peer pushes and that is new is acknowledged to the peer and pushed to the other
subscribers of its document. Newness is judged against the tree before the save. The heads that the
messages carry are read after the addition, which minimizes the resident tree in place.

* **`Party.not_stored_of_new`** — what is judged new is not stored, where the resident tree knows what
  is.
* **`Party.length_messages_le`** — a fan-out is an acknowledgement and at most one push per connection.
-/

import Subduction.Connection.RemoteHeads
import Subduction.Node.Apart

set_option linter.unusedSectionVars false

namespace Subduction

open Node Option

/-! ### The name of an item -/

/-- The kind and the head of an item: what its newness is judged by. -/
inductive ItemKey where
  | commit (head : CommitId)
  | fragment (head : CommitId)
deriving DecidableEq

def Item.key : Item → ItemKey
  | commit payload => .commit payload.head
  | fragment payload => .fragment payload.head

/-- `has_loose_commit` or `has_fragment`. -/
def Sedimentree.knows (tree : Sedimentree) : ItemKey → Bool
  | .commit head => (tree.commit? head).isSome
  | .fragment head => (tree.fragment? head).isSome

section Knows

variable [Blake3] [Bijou64] [IterOrder CommitId]

theorem Content.knows_tree {content : Content} {key : ItemKey} :
    content.tree.knows key = true ↔ ∃ item, content.Has item ∧ item.key = key := by
  cases key with
  | commit head =>
    refine Shelf.isSome_get?_ofList.trans ⟨fun found => ?_, fun found => ?_⟩
    · obtain ⟨payload, listed, isHead⟩ := found
      exact ⟨.commit payload, listed, congrArg ItemKey.commit isHead⟩
    · obtain ⟨item, has, isKey⟩ := found
      cases item with
      | commit payload => exact ⟨payload, has, ItemKey.commit.inj isKey⟩
      | fragment payload => exact nomatch isKey
  | fragment head =>
    refine Shelf.isSome_get?_ofList.trans ⟨fun found => ?_, fun found => ?_⟩
    · obtain ⟨payload, listed, isHead⟩ := found
      exact ⟨.fragment payload, listed, congrArg ItemKey.fragment isHead⟩
    · obtain ⟨item, has, isKey⟩ := found
      cases item with
      | commit payload => exact nomatch isKey
      | fragment payload => exact ⟨payload, has, ItemKey.fragment.inj isKey⟩

end Knows

/-! ### Messages -/

variable [Blake3] [Bijou64Codec]

/-- The document and the item of a push, as its signed fields say. -/
def SyncMessage.carries : SyncMessage → Option (SedimentreeId × Item)
  | looseCommit id signed _ _ => signed.tryDecodeTrustedPayload.toOption.map fun payload =>
    (id, .commit payload)
  | fragment id signed _ _ => signed.tryDecodeTrustedPayload.toOption.map fun payload =>
    (id, .fragment payload)
  | _ => none

def VerifiedItem.push (verified : VerifiedItem) (id : SedimentreeId) (senderHeads : RemoteHeads) :
    SyncMessage :=
  match verified with
  | .commit verified => .looseCommit id verified.signed verified.blob senderHeads
  | .fragment verified => .fragment id verified.signed verified.blob senderHeads

theorem VerifiedItem.carries_push (verified : VerifiedItem) (id : SedimentreeId)
    (senderHeads : RemoteHeads) : (verified.push id senderHeads).carries = some (id, verified.item) := by
  cases verified with
  | commit verified | fragment verified =>
    show verified.signed.tryDecodeTrustedPayload.toOption.map _ = _
    rw [VerifiedMeta.signed, verified.verified.decodes]
    rfl

/-! ### A node among others -/

variable [IterOrder CommitId] [IterOrder (Digest LooseCommit)] [IterOrder (Digest Fragment)]

/-- **A node with what its handlers read**: who may write and fetch, the subscribers of every document,
the number of connections to every peer, and the send counters. -/
structure Party where
  node : Node
  policy : Policy
  depthMetric : DepthMetric
  subscriptions : FinMap SedimentreeId (Finset PeerId)
  filterAuthorizedFetch : PeerId → SedimentreeId → Bool
  connections : FinMap PeerId Nat
  sendCounter : PeerCounter

/-- The acknowledgement and the pushes that follow an item, each with its receiver. -/
structure FanOut where
  ack : PeerId × SyncMessage
  pushes : List (PeerId × SyncMessage)

def FanOut.messages (fanOut : FanOut) : List (PeerId × SyncMessage) := fanOut.ack :: fanOut.pushes

/-- One push per connection, stamped in order. -/
def buildPushes (seed : PeerId → UInt64) (push : RemoteHeads → SyncMessage) (heads : List CommitId) :
    PeerCounter → List PeerId → PeerCounter × List (PeerId × SyncMessage)
  | counters, [] => (counters, [])
  | counters, peer :: conns =>
    let (counters, counter) := counters.next (seed peer) peer
    let (counters, pushes) := buildPushes seed push heads counters conns
    (counters, (peer, push ⟨counter, heads⟩) :: pushes)

theorem length_buildPushes (seed : PeerId → UInt64) (push : RemoteHeads → SyncMessage)
    (heads : List CommitId) (counters : PeerCounter) (conns : List PeerId) :
    (buildPushes seed push heads counters conns).2.length = conns.length := by
  induction conns generalizing counters with
  | nil => rfl
  | cons peer conns ih => exact congrArg (· + 1) (ih _)

theorem exists_of_mem_buildPushes {seed : PeerId → UInt64} {push : RemoteHeads → SyncMessage}
    {heads : List CommitId} {counters : PeerCounter} {conns : List PeerId}
    {sent : PeerId × SyncMessage} (member : sent ∈ (buildPushes seed push heads counters conns).2) :
    ∃ senderHeads, sent.2 = push senderHeads := by
  induction conns generalizing counters with
  | nil => exact nomatch member
  | cons peer conns ih =>
    rcases List.mem_cons.mp member with rfl | later
    · exact ⟨_, rfl⟩
    · exact ih later

namespace Party

variable [Ed25519] [IterOrder PeerId]

/-- `get_authorized_subscriber_conns`: the peer of every connection. -/
def getAuthorizedSubscriberConns (party : Party) (id : SedimentreeId) (excludePeer : PeerId) :
    List PeerId :=
  let subscriberIds := IterOrder.list ((party.subscriptions.get? id).getD ∅)
  let authorizedPeers := subscriberIds.filter fun peer =>
    peer ≠ excludePeer ∧ party.filterAuthorizedFetch peer id = true
  authorizedPeers.flatMap fun peer => List.replicate ((party.connections.get? peer).getD 0) peer

/-- `heads_for`. -/
def headsFor (party : Party) (id : SedimentreeId) : Party × List CommitId :=
  let (node, heads) := party.node.headsOrHydrate party.depthMetric id
  ({ party with node }, heads.getD [])

section

variable (party : Party) (seed : PeerId → UInt64)

variable (sender : PeerId)

/-- What follows a new item: the heads, the acknowledgement to `sender`, and the pushes. The counters
of peers without one start from `seed`. -/
def fanOut (id : SedimentreeId) (push : RemoteHeads → SyncMessage) : Party × FanOut :=
  let (party, heads) := party.headsFor id
  let (counters, counter) := party.sendCounter.next (seed sender) sender
  let conns := party.getAuthorizedSubscriberConns id sender
  let (counters, pushes) := buildPushes seed push heads counters conns
  ({ party with sendCounter := counters }, ⟨(sender, .headsUpdate id ⟨counter, heads⟩), pushes⟩)

/-- The fan-out of an item that was new. -/
def fanOutIfNew (id : SedimentreeId)
    (push : RemoteHeads → SyncMessage) (received : Node × Option Bool) : Party × Option FanOut :=
  let party := { party with node := received.1 }
  if received.2 = some true then
    let (party, fanOut) := party.fanOut seed sender id push
    (party, some fanOut)
  else (party, none)

/-- `recv_commit`. -/
def recvCommit (id : SedimentreeId)
    (signedCommit : Signed LooseCommit) (blob : Blob) : Party × Option FanOut :=
  party.fanOutIfNew seed sender id (SyncMessage.looseCommit id signedCommit blob)
    (party.node.recvCommit party.policy sender id signedCommit blob)

/-- `recv_fragment`. -/
def recvFragment (id : SedimentreeId)
    (signedFragment : Signed Fragment) (blob : Blob) : Party × Option FanOut :=
  party.fanOutIfNew seed sender id (SyncMessage.fragment id signedFragment blob)
    (party.node.recvFragment party.policy sender id signedFragment blob)

/-- `dispatch`, for the messages of a fan-out: an acknowledgement is for the observer only. -/
def dispatch : SyncMessage → Party × Option FanOut
  | .looseCommit id commit blob _ => party.recvCommit seed sender id commit blob
  | .fragment id fragment blob _ => party.recvFragment seed sender id fragment blob
  | _ => (party, none)

end

/-! ### A handler in steps -/

/-- `try_verify`, the policy and `VerifiedMeta::new`: what is left of a push, with its document. -/
def accepted (party : Party) (sender : PeerId) : SyncMessage → Option (SedimentreeId × VerifiedItem)
  | .looseCommit id signed blob _ =>
    (accept (fun author => party.policy sender author id) (signed, blob)).map fun verified =>
      (id, .commit verified)
  | .fragment id signed blob _ =>
    (accept (fun author => party.policy sender author id) (signed, blob)).map fun verified =>
      (id, .fragment verified)
  | _ => none

end Party

/-- **Where the handling of a message stands**: it is on its way, its item is judged and about to be
saved, saved and about to be added, or added and about to be sent on. -/
inductive Handling where
  | sent (message : SyncMessage)
  | save (id : SedimentreeId) (verified : VerifiedItem) (wasNew : Bool)
  | add (id : SedimentreeId) (verified : VerifiedItem) (wasNew : Bool)
  | fanOut (id : SedimentreeId) (verified : VerifiedItem)

/-- What a step of a handler leaves: the node, how the handling goes on, and what is sent. -/
structure Handled where
  party : Party
  next : Option Handling
  fanOut : Option FanOut

namespace Party

variable [Ed25519] [IterOrder PeerId]

/-- **One step of a handler.** Between two steps the node works on other messages. -/
def advance (party : Party) (seed : PeerId → UInt64) (sender : PeerId) : Handling → Handled
  | .sent message =>
    match party.accepted sender message with
    | none => ⟨party, none, none⟩
    | some (id, verified) =>
      let (node, wasAdded) := party.node.withHydratedRef id fun owner =>
        !owner.tree.knows verified.item.key
      ⟨{ party with node }, some (.save id verified (wasAdded.getD true)), none⟩
  | .save id verified wasNew =>
    let node := { party.node with storage := verified.save id party.node.storage }
    ⟨{ party with node }, some (.add id verified wasNew), none⟩
  | .add id verified wasNew =>
    let node := party.node.withEntryHydrated id verified.item.addTo
    ⟨{ party with node }, if wasNew then some (.fanOut id verified) else none, none⟩
  | .fanOut id verified =>
    let (party, fanOut) := party.fanOut seed sender id (verified.push id)
    ⟨party, none, some fanOut⟩

/-- The handling takes its steps, one after the other, and ends with the node and the fan-out. -/
inductive Finishes (seed : PeerId → UInt64) (sender : PeerId) : Party → Handling → Party × Option FanOut → Prop
  | last {party : Party} {handling : Handling}
      (ends : (party.advance seed sender handling).next = none) :
      Finishes seed sender party handling
        ((party.advance seed sender handling).party, (party.advance seed sender handling).fanOut)
  | next {party : Party} {handling later : Handling} {result : Party × Option FanOut}
      (goesOn : (party.advance seed sender handling).next = some later)
      (rest : Finishes seed sender (party.advance seed sender handling).party later result) :
      Finishes seed sender party handling result

section Steps

variable {party : Party} {seed : PeerId → UInt64} {sender : PeerId} {message : SyncMessage}
  {id : SedimentreeId} {verified : VerifiedItem}

theorem push_of_accepted (accepts : party.accepted sender message = some (id, verified)) :
    ∃ senderHeads, message = verified.push id senderHeads := by
  cases message with
  | looseCommit other signed blob heads | fragment other signed blob heads =>
    obtain ⟨found, isFound, same⟩ := map_eq_some_iff.mp accepts
    obtain ⟨rfl, rfl⟩ := Prod.mk.inj same
    obtain ⟨verifies, isBlob, -⟩ := accept_eq_some isFound
    refine ⟨heads, ?_⟩
    rw [VerifiedItem.push, VerifiedMeta.signed, (Signed.tryVerify_eq_ok.mp verifies).1, isBlob]
  | _ => cases accepts

theorem carries_of_accepted (accepts : party.accepted sender message = some (id, verified)) :
    message.carries = some (id, verified.item) := by
  obtain ⟨senderHeads, rfl⟩ := push_of_accepted accepts
  exact verified.carries_push id senderHeads

theorem dispatch_dropped (dropped : party.accepted sender message = none) :
    party.dispatch seed sender message = (party, none) := by
  cases message with
  | looseCommit id signed blob heads =>
    have refused := map_eq_none_iff.mp dropped
    show party.recvCommit seed sender id signed blob = _
    unfold recvCommit Node.recvCommit
    rw [recvSigned_eq, refused]
    rfl
  | fragment id signed blob heads =>
    have refused := map_eq_none_iff.mp dropped
    show party.recvFragment seed sender id signed blob = _
    unfold recvFragment Node.recvFragment
    rw [recvSigned_eq, refused]
    rfl
  | _ => rfl

theorem dispatch_accepted (accepts : party.accepted sender message = some (id, verified)) :
    party.dispatch seed sender message = party.fanOutIfNew seed sender id (verified.push id)
      ((verified.insertLocally party.node id).1, some (verified.insertLocally party.node id).2) := by
  obtain ⟨senderHeads, isPush⟩ := push_of_accepted accepts
  cases verified with
  | commit verified =>
    subst isPush
    obtain ⟨found, isFound, same⟩ := map_eq_some_iff.mp accepts
    obtain rfl := VerifiedItem.commit.inj (Prod.mk.inj same).2
    show party.recvCommit seed sender id found.signed found.blob = _
    unfold recvCommit Node.recvCommit
    rw [recvSigned_eq, isFound]
    rfl
  | fragment verified =>
    subst isPush
    obtain ⟨found, isFound, same⟩ := map_eq_some_iff.mp accepts
    obtain rfl := VerifiedItem.fragment.inj (Prod.mk.inj same).2
    show party.recvFragment seed sender id found.signed found.blob = _
    unfold recvFragment Node.recvFragment
    rw [recvSigned_eq, isFound]
    rfl

theorem advance_dropped (dropped : party.accepted sender message = none) :
    party.advance seed sender (.sent message) = ⟨party, none, none⟩ := by
  rw [advance, dropped]

theorem advance_accepted (accepts : party.accepted sender message = some (id, verified)) :
    party.advance seed sender (.sent message) =
      ⟨{ party with node := (party.node.withHydratedRef id fun owner =>
          !owner.tree.knows verified.item.key).1 },
        some (.save id verified ((party.node.withHydratedRef id fun owner =>
          !owner.tree.knows verified.item.key).2.getD true)), none⟩ := by
  rw [advance, accepts]

theorem insertLocally_eq (verified : VerifiedItem) (node : Node) (id : SedimentreeId) :
    verified.insertLocally node id = node.insertLocally id
      (fun tree => tree.knows verified.item.key) (verified.save id) verified.item.addTo := by
  cases verified with
  | commit verified => rfl
  | fragment verified => rfl

theorem Finishes.save (party : Party) (wasNew : Bool) :
    Finishes seed sender party (.save id verified wasNew)
      (party.fanOutIfNew seed sender id (verified.push id)
        (({ party.node with storage := verified.save id party.node.storage } : Node).withEntryHydrated id
          verified.item.addTo, some wasNew)) := by
  refine .next rfl ?_
  cases wasNew with
  | true => exact .next rfl (.last rfl)
  | false => exact .last rfl

/-- **The steps without interruption** do what the sequential handler does. -/
theorem Finishes.dispatch (party : Party) (seed : PeerId → UInt64) (sender : PeerId)
    (message : SyncMessage) :
    Finishes seed sender party (.sent message) (party.dispatch seed sender message) := by
  cases accepts : party.accepted sender message with
  | none =>
    have ends : Finishes seed sender party (.sent message)
        ((party.advance seed sender (.sent message)).party,
          (party.advance seed sender (.sent message)).fanOut) :=
      .last (by rw [advance_dropped accepts])
    rw [advance_dropped accepts] at ends
    rw [dispatch_dropped accepts]
    exact ends
  | some found =>
    obtain ⟨id, verified⟩ := found
    rw [dispatch_accepted accepts, insertLocally_eq]
    refine .next (by rw [advance_accepted accepts]) ?_
    rw [advance_accepted accepts]
    exact .save _ _

/-! ### What is judged new -/

/-- **Nothing that is stored was forgotten**: a stored item with the name of the one that is judged is
known to the resident tree; and what is saved does not meet another payload with its digest. -/
def Remembers (party : Party) (sender : PeerId) : Handling → Prop
  | .sent message => ∀ judged ∈ party.accepted sender message,
      ∀ owner ∈ party.node.sedimentrees judged.1, ∀ item,
        (party.node.storage.content judged.1).Has item → item.key = judged.2.item.key →
          owner.tree.knows judged.2.item.key = true
  | .save id verified _ => (Effect.save verified).Distinct party.node.storage id
  | _ => True

instance (party : Party) (sender : PeerId) : ∀ handling, Decidable (party.Remembers sender handling)
  | .sent message => inferInstanceAs (Decidable (∀ judged ∈ party.accepted sender message,
      ∀ owner ∈ party.node.sedimentrees judged.1, ∀ item,
        (party.node.storage.content judged.1).Has item → item.key = judged.2.item.key →
          owner.tree.knows judged.2.item.key = true))
  | .save id verified _ => inferInstanceAs
      (Decidable ((Effect.save verified).Distinct party.node.storage id))
  | .add _ _ _ => isTrue trivial
  | .fanOut _ _ => isTrue trivial

theorem not_stored_of_new (accepts : party.accepted sender message = some (id, verified))
    (remembers : party.Remembers sender (.sent message))
    (new : (party.node.withHydratedRef id fun owner =>
      !owner.tree.knows verified.item.key).2.getD true = true) {item : Item}
    (stored : party.node.storage.Has id item) : item.key ≠ verified.item.key := by
  intro sameKey
  have has := MemoryStorage.content_has.mpr stored
  unfold Node.withHydratedRef at new
  cases resident : party.node.sedimentrees id with
  | some owner =>
    have knows := remembers _ accepts owner resident item has sameKey
    rw [resident] at new
    dsimp only [getD_some] at new
    rw [knows] at new
    exact nomatch new
  | none =>
    rw [resident, MemoryStorage.loadTree_eq] at new
    cases empty : (party.node.storage.content id).isEmpty with
    | true => exact Content.not_has_of_isEmpty empty item has
    | false =>
      have knows := Content.knows_tree.mpr ⟨item, has, sameKey⟩
      rw [empty] at new
      have unknown : (!(party.node.storage.content id).tree.knows verified.item.key) = true := new
      rw [knows] at unknown
      exact nomatch unknown

/-! ### What a step changes -/

theorem advance_storage (handling : Handling) :
    (party.advance seed sender handling).party.node.storage = match handling with
      | .save id verified _ => verified.save id party.node.storage
      | _ => party.node.storage := by
  cases handling with
  | sent message =>
    cases accepts : party.accepted sender message with
    | none => rw [advance_dropped accepts]
    | some found =>
      rw [advance_accepted accepts]
      exact withHydratedRef_storage _
  | save id verified wasNew => rfl
  | add id verified wasNew => exact withEntryHydrated_storage _
  | fanOut id verified => exact headsOrHydrate_storage _

def width (party : Party) : Nat := ∑ peer ∈ party.connections.keys, (party.connections.get? peer).getD 0

theorem advance_width (handling : Handling) :
    (party.advance seed sender handling).party.width = party.width := by
  cases handling with
  | sent message =>
    cases accepts : party.accepted sender message with
    | none => rw [advance_dropped accepts]
    | some found =>
      rw [advance_accepted accepts]
      rfl
  | _ => rfl

theorem length_getAuthorizedSubscriberConns_le (party : Party) (id : SedimentreeId)
    (excludePeer : PeerId) :
    (party.getAuthorizedSubscriberConns id excludePeer).length ≤ party.width := by
  unfold getAuthorizedSubscriberConns width
  dsimp only
  set peers := (IterOrder.list ((party.subscriptions.get? id).getD ∅)).filter _ with isPeers
  have distinct : peers.Nodup := (IterOrder.nodup_list _).filter _
  rw [List.length_flatMap]
  simp only [List.length_replicate]
  rw [← List.sum_toFinset _ distinct]
  refine Finset.sum_le_sum_of_ne_zero fun peer _ some => ?_
  rw [FinMap.mem_keys]
  cases found : party.connections.get? peer with
  | some count => exact ⟨count, rfl⟩
  | none =>
    rw [found] at some
    exact absurd rfl some

theorem length_messages_le {fanOut : FanOut} {handling : Handling}
    (sends : (party.advance seed sender handling).fanOut = some fanOut) :
    fanOut.messages.length ≤ party.width + 1 := by
  cases handling with
  | fanOut id verified =>
    obtain rfl := Option.some.inj sends
    show (buildPushes seed _ _ _ _).2.length + 1 ≤ _
    rw [length_buildPushes]
    exact Nat.succ_le_succ (length_getAuthorizedSubscriberConns_le _ id sender)
  | sent message =>
    cases accepts : party.accepted sender message with
    | none =>
      rw [advance_dropped accepts] at sends
      exact nomatch sends
    | some found =>
      rw [advance_accepted accepts] at sends
      exact nomatch sends
  | _ => exact nomatch sends

theorem carries_of_mem_messages {fanOut : FanOut}
    (sends : (party.advance seed sender (.fanOut id verified)).fanOut = some fanOut)
    {sent : PeerId × SyncMessage} (member : sent ∈ fanOut.messages) :
    sent.2.carries = none ∨ sent.2.carries = some (id, verified.item) := by
  obtain rfl := Option.some.inj sends
  rcases List.mem_cons.mp member with rfl | pushed
  · exact Or.inl rfl
  · obtain ⟨senderHeads, isPush⟩ := exists_of_mem_buildPushes pushed
    rw [isPush]
    exact Or.inr (verified.carries_push id senderHeads)

end Steps

end Party

end Subduction
