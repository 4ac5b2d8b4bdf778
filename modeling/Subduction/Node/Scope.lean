/-
**The document of an item and the document it is stored under.**

An item is signed together with the document it belongs to, but it is stored, and added to a resident
tree, under the document that the message names. Nothing compares the two.

* **`Event.Accepts.exists_digest`** — what a step accepts is stored, or its digest was taken.
* **`Node.Within.step`**, **`scope_bound_iff_addressed`**.
-/

import Subduction.Core.Minimize
import Subduction.Node.Ingest

set_option linter.unusedSectionVars false

namespace Subduction

open MemoryStorage Sedimentree Node List

section Scope

variable [Blake3] [Bijou64Codec] [IterOrder CommitId] [IterOrder (Digest LooseCommit)]
  [IterOrder (Digest Fragment)]

/-! ### What a node holds -/

/-- The item is stored or resident for the document. -/
def Node.Holds (node : Node) (id : SedimentreeId) (item : Item) : Prop :=
  node.storage.Has id item ∨ ∃ owner, node.sedimentrees id = some owner ∧ owner.tree.Has item

/-- **Everything the node holds satisfies the condition.** -/
def Node.Within (allowed : SedimentreeId → Item → Prop) (node : Node) : Prop :=
  ∀ id item, node.Holds id item → allowed id item

namespace Node

variable {node : Node} {allowed : SedimentreeId → Item → Prop} {id : SedimentreeId}

section

variable (within : node.Within allowed)

include within

theorem Within.update {tree : Option MinimizedSedimentree}
    (holds : ∀ owner item, tree = some owner → owner.tree.Has item → allowed id item) :
    ({ node with sedimentrees := Function.update node.sedimentrees id tree } : Node).Within
      allowed := by
  intro other item held
  rcases held with stored | ⟨found, resident, has⟩
  · exact within other item (Or.inl stored)
  · change Function.update node.sedimentrees id tree other = some found at resident
    by_cases same : other = id
    · subst same
      rw [Function.update_self] at resident
      exact holds found item resident has
    · rw [Function.update_of_ne same] at resident
      exact within other item (Or.inr ⟨found, resident, has⟩)

theorem Within.install {owner : MinimizedSedimentree}
    (holds : ∀ item, owner.tree.Has item → allowed id item) :
    (node.install id owner).Within allowed :=
  within.update fun _ item same has => holds item (Option.some.inj same ▸ has)

theorem Within.evict : (node.evict id).Within allowed :=
  within.update fun _ _ impossible _ => nomatch impossible

theorem Within.save {storage : MemoryStorage} (saved : ∀ other item, storage.Has other item →
      node.storage.Has other item ∨ allowed other item) :
    ({ node with storage := storage } : Node).Within allowed := by
  intro other item held
  rcases held with stored | resident
  · rcases saved other item stored with old | new
    · exact within other item (Or.inl old)
    · exact new
  · exact within other item (Or.inr resident)

theorem Within.loadTree {owner : MinimizedSedimentree}
    (loaded : node.storage.loadTree id = some owner) {item : Item} (has : owner.tree.Has item) :
    allowed id item :=
  within id item (Or.inl (has_of_loadTree loaded has))

end

theorem Within.withHydratedRef {R : Type} (within : node.Within allowed)
    (inspect : MinimizedSedimentree → R) : (node.withHydratedRef id inspect).1.Within allowed := by
  unfold Node.withHydratedRef
  split
  · exact within
  · split
    · exact within
    · rename_i loaded isLoaded
      exact within.install fun item has => within.loadTree isLoaded has

/-- **A change of a resident tree** that adds nothing but allowed items. -/
theorem Within.withEntryHydrated (within : node.Within allowed)
    {mutate : MinimizedSedimentree → MinimizedSedimentree}
    (adds : ∀ owner item, (mutate owner).tree.Has item → owner.tree.Has item ∨ allowed id item) :
    (node.withEntryHydrated id mutate).Within allowed := by
  unfold Node.withEntryHydrated
  split
  · rename_i owner resident
    refine within.install fun item has => ?_
    rcases adds owner item has with old | new
    · exact within id item (Or.inr ⟨owner, resident, old⟩)
    · exact new
  · refine within.install fun item has => ?_
    rcases adds _ item has with old | new
    · cases loaded : node.storage.loadTree id with
      | none =>
        rw [loaded] at old
        exact absurd old not_has_empty
      | some owner =>
        rw [loaded] at old
        exact within.loadTree loaded old
    · exact new

theorem withHydratedRef_storage {R : Type} (inspect : MinimizedSedimentree → R) :
    (node.withHydratedRef id inspect).1.storage = node.storage := by
  unfold Node.withHydratedRef
  split
  · rfl
  · split
    · rfl
    · rfl

theorem withEntryHydrated_storage (mutate : MinimizedSedimentree → MinimizedSedimentree) :
    (node.withEntryHydrated id mutate).storage = node.storage := by
  unfold Node.withEntryHydrated
  split
  · rfl
  · rfl

theorem getOrHydrate_storage (depthMetric : DepthMetric) :
    (node.getOrHydrate depthMetric id).1.storage = node.storage := by
  unfold Node.getOrHydrate
  split
  · rfl
  · split
    · split
      · rfl
      · rfl
    · rfl

theorem headsOrHydrate_storage (depthMetric : DepthMetric) :
    (node.headsOrHydrate depthMetric id).1.storage = node.storage := by
  unfold Node.headsOrHydrate
  split
  · rfl
  · exact getOrHydrate_storage depthMetric

/-! ### One item -/

theorem Within.insertLocally (within : node.Within allowed) {known : Sedimentree → Bool}
    {save : MemoryStorage → MemoryStorage} {add : MinimizedSedimentree → MinimizedSedimentree}
    (saves : ∀ storage other item, (save storage).Has other item →
      storage.Has other item ∨ allowed other item)
    (adds : ∀ owner item, (add owner).tree.Has item → owner.tree.Has item ∨ allowed id item) :
    (node.insertLocally id known save add).1.Within allowed :=
  ((within.withHydratedRef _).save (saves _)).withEntryHydrated adds

theorem insertLocally_storage (known : Sedimentree → Bool) (save : MemoryStorage → MemoryStorage)
    (add : MinimizedSedimentree → MinimizedSedimentree) :
    (node.insertLocally id known save add).1.storage = save node.storage := by
  unfold Node.insertLocally
  dsimp only
  rw [withEntryHydrated_storage]
  exact congrArg save (withHydratedRef_storage _)

theorem Within.insertCommitLocally (within : node.Within allowed) {verified : VerifiedMeta LooseCommit}
    (allows : allowed id (.commit verified.payload)) :
    (node.insertCommitLocally id verified).1.Within allowed := by
  refine within.insertLocally (fun storage other item has => ?_) fun owner item has => ?_
  · rw [saveLooseCommit_eq] at has
    rcases has_saveBatch has with old | ⟨rfl, listed⟩
    · exact Or.inl old
    · cases listed with
      | commit member => exact Or.inr (mem_singleton.mp member ▸ allows)
      | fragment member => exact nomatch member
  · rcases has_addCommit has with old | rfl
    · exact Or.inl old
    · exact Or.inr allows

theorem Within.insertFragmentLocally (within : node.Within allowed) {verified : VerifiedMeta Fragment}
    (allows : allowed id (.fragment verified.payload)) :
    (node.insertFragmentLocally id verified).1.Within allowed := by
  refine within.insertLocally (fun storage other item has => ?_) fun owner item has => ?_
  · rw [saveFragment_eq] at has
    rcases has_saveBatch has with old | ⟨rfl, listed⟩
    · exact Or.inl old
    · cases listed with
      | commit member => exact nomatch member
      | fragment member => exact Or.inr (mem_singleton.mp member ▸ allows)
  · rcases has_addFragment has with old | rfl
    · exact Or.inl old
    · exact Or.inr allows

variable [Ed25519]

theorem Within.recvSigned {α : Type} [DecodeFields α] [HasBlobMeta α] (within : node.Within allowed)
    {authorize : VerifyingKey → Bool} {signed : Signed α} {blob : Blob}
    {insert : VerifiedMeta α → Node × Bool}
    (inserts : ∀ verified, accept authorize (signed, blob) = some verified →
      (insert verified).1.Within allowed) :
    (node.recvSigned authorize signed blob insert).1.Within allowed := by
  rw [recvSigned_fst]
  split
  · rename_i verified accepted
    exact inserts verified accepted
  · exact within

/-! ### A batch -/

theorem Within.addAll {β : Type} (payloads : List β)
    {add : β → MinimizedSedimentree → MinimizedSedimentree} {node : Node} (within : node.Within allowed)
    (adds : ∀ payload ∈ payloads, ∀ owner item, (add payload owner).tree.Has item →
      owner.tree.Has item ∨ allowed id item) :
    (payloads.foldl (fun node payload => node.withEntryHydrated id (add payload)) node).Within
      allowed := by
  induction payloads generalizing node with
  | nil => exact within
  | cons payload payloads ih =>
    exact ih (within.withEntryHydrated (adds payload mem_cons_self))
      fun later member => adds later (mem_cons_of_mem _ member)

theorem addAll_storage {β : Type} (payloads : List β)
    (add : β → MinimizedSedimentree → MinimizedSedimentree) (node : Node) :
    (payloads.foldl (fun node payload => node.withEntryHydrated id (add payload)) node).storage =
      node.storage := by
  induction payloads generalizing node with
  | nil => rfl
  | cons payload payloads ih => exact (ih _).trans (withEntryHydrated_storage _)

theorem Within.flushAuthor (within : node.Within allowed)
    {commits : List (VerifiedMeta LooseCommit)} {fragments : List (VerifiedMeta Fragment)}
    (allows : ∀ item, MemoryStorage.Listed commits fragments item → allowed id item) :
    (node.flushAuthor id commits fragments).1.Within allowed := by
  refine Within.addAll _ (Within.addAll _ (Within.save (within.withHydratedRef _) ?_) ?_) ?_
  · intro other item has
    rcases has_saveBatch has with old | ⟨rfl, listed⟩
    · exact Or.inl old
    · exact Or.inr (allows item listed)
  · intro payload member owner item has
    obtain ⟨verified, inBatch, rfl⟩ := mem_map.mp member
    rcases has_addCommit has with old | rfl
    · exact Or.inl old
    · exact Or.inr (allows _ (.commit inBatch))
  · intro payload member owner item has
    obtain ⟨verified, inBatch, rfl⟩ := mem_map.mp member
    rcases has_addFragment has with old | rfl
    · exact Or.inl old
    · exact Or.inr (allows _ (.fragment inBatch))

theorem flushAuthor_storage (commits : List (VerifiedMeta LooseCommit))
    (fragments : List (VerifiedMeta Fragment)) :
    (node.flushAuthor id commits fragments).1.storage =
      (node.storage.saveBatch id commits fragments).1 := by
  unfold Node.flushAuthor
  dsimp only
  rw [addAll_storage, addAll_storage]
  exact congrArg (fun storage => (storage.saveBatch id commits fragments).1)
    (withHydratedRef_storage _)

section Authors

variable {putterCache : Finset PeerId}
  {commitsByAuthor : FinMap PeerId (List (VerifiedMeta LooseCommit))}
  {fragmentsByAuthor : FinMap PeerId (List (VerifiedMeta Fragment))}

def OfAuthor (commitsByAuthor : FinMap PeerId (List (VerifiedMeta LooseCommit)))
    (fragmentsByAuthor : FinMap PeerId (List (VerifiedMeta Fragment))) (author : PeerId) :
    Item → Prop :=
  MemoryStorage.Listed ((commitsByAuthor.get? author).getD [])
    ((fragmentsByAuthor.get? author).getD [])

variable (authors : List PeerId) {state : Node × Ingested}

include authors

theorem Within.flushAll (within : state.1.Within allowed)
    (allows : ∀ author item, OfAuthor commitsByAuthor fragmentsByAuthor author item →
      allowed id item) :
    (authors.foldl (flushNext id putterCache commitsByAuthor fragmentsByAuthor) state).1.Within
      allowed := by
  induction authors generalizing state with
  | nil => exact within
  | cons author authors ih =>
    apply ih
    unfold flushNext
    split
    · exact within.flushAuthor (allows author)
    · exact within

theorem flushAll_keeps {other : SedimentreeId}
    {item : Item} (has : state.1.storage.Has other item) :
    (authors.foldl (flushNext id putterCache commitsByAuthor fragmentsByAuthor)
      state).1.storage.Has other item := by
  induction authors generalizing state with
  | nil => exact has
  | cons author authors ih =>
    apply ih
    unfold flushNext
    split
    · dsimp only
      rw [flushAuthor_storage]
      exact has.saveBatch
    · exact has

theorem flushAll_digest {author : PeerId}
    (listed : author ∈ authors) (cached : author ∈ putterCache) {item : Item}
    (isItem : OfAuthor commitsByAuthor fragmentsByAuthor author item) :
    ∃ found, (authors.foldl (flushNext id putterCache commitsByAuthor fragmentsByAuthor)
      state).1.storage.Has id found ∧ found.SameDigest item := by
  induction authors generalizing state with
  | nil => exact nomatch listed
  | cons first authors ih =>
    rcases mem_cons.mp listed with rfl | later
    · obtain ⟨found, has, same⟩ :=
        exists_digest_saveBatch state.1.storage id isItem
      refine ⟨found, flushAll_keeps authors ?_, same⟩
      unfold flushNext
      rw [if_pos cached]
      dsimp only
      rw [flushAuthor_storage]
      exact has
    · exact ih later

end Authors

end Node

/-! ### What a message brings -/

/-- **The item is accepted** from the signed items. -/
inductive AcceptedOf [Ed25519] (authorize : VerifyingKey → Bool) (commits : List (Signed LooseCommit × Blob))
    (fragments : List (Signed Fragment × Blob)) : Item → Prop
  | commit {signed verified} : signed ∈ commits → accept authorize signed = some verified →
      AcceptedOf authorize commits fragments (.commit verified.payload)
  | fragment {signed verified} : signed ∈ fragments → accept authorize signed = some verified →
      AcceptedOf authorize commits fragments (.fragment verified.payload)

section Collecting

variable [Ed25519] {authorize : VerifyingKey → Bool} {cache : Finset PeerId}
  {commits : List (Signed LooseCommit × Blob)} {fragments : List (Signed Fragment × Blob)}
  {fromCommits : Collected LooseCommit} {fromFragments : Collected Fragment}

section

variable (collectsCommits : Collects authorize cache commits fromCommits) (collectsFragments : Collects authorize fromCommits.putterCache fragments fromFragments)

include collectsCommits collectsFragments

theorem acceptedOf_of_ofAuthor {author : PeerId} {item : Item}
    (ofAuthor : Node.OfAuthor fromCommits.byAuthor fromFragments.byAuthor author item) :
    AcceptedOf authorize commits fragments item := by
  cases ofAuthor with
  | commit member =>
    obtain ⟨signed, listed, accepted⟩ := collectsCommits.sound author _ member
    exact .commit listed accepted
  | fragment member =>
    obtain ⟨signed, listed, accepted⟩ := collectsFragments.sound author _ member
    exact .fragment listed accepted

theorem exists_ofAuthor {item : Item} (accepted : AcceptedOf authorize commits fragments item) :
    ∃ author ∈ fromCommits.byAuthor.keys ∪ fromFragments.byAuthor.keys,
      author ∈ fromFragments.putterCache ∧
        Node.OfAuthor fromCommits.byAuthor fromFragments.byAuthor author item := by
  cases accepted with
  | commit listed isVerified =>
    obtain ⟨isKey, cached, member⟩ := collectsCommits.complete _ listed _ isVerified
    exact ⟨_, Finset.mem_union_left _ isKey, collectsFragments.cached cached, .commit member⟩
  | fragment listed isVerified =>
    obtain ⟨isKey, cached, member⟩ := collectsFragments.complete _ listed _ isVerified
    exact ⟨_, Finset.mem_union_right _ isKey, cached, .fragment member⟩

end

theorem collects_diff (authorize : VerifyingKey → Bool) (diff : SyncDiff) :
    let fromCommits := collect authorize ⟨∅, ∅⟩ diff.missingCommits
    Collects authorize ∅ diff.missingCommits fromCommits ∧
      Collects authorize fromCommits.putterCache diff.missingFragments
        (collect authorize ⟨fromCommits.putterCache, ∅⟩ diff.missingFragments) := by
  intro fromCommits
  have collectsCommits : Collects authorize ∅ diff.missingCommits fromCommits :=
    collect_collects _ fun _ member => absurd member (Finset.notMem_empty _)
  exact ⟨collectsCommits, collect_collects _ collectsCommits.allowed⟩

end Collecting

/-! ### Runs -/

/-- **What happens to a node**: a message with the policy at that time, a read of the heads, which
minimizes or hydrates the tree, or an eviction. -/
inductive Event where
  | looseCommit (policy : Policy) (sender : PeerId) (id : SedimentreeId) (commit : Signed LooseCommit)
      (blob : Blob)
  | fragment (policy : Policy) (sender : PeerId) (id : SedimentreeId) (signed : Signed Fragment)
      (blob : Blob)
  | batchSyncResponse (policy : Policy) (sender : PeerId) (id : SedimentreeId) (diff : SyncDiff)
  | heads (depthMetric : DepthMetric) (id : SedimentreeId)
  | evict (id : SedimentreeId)

section Runs

variable [Ed25519] [IterOrder PeerId]

def Node.step (node : Node) : Event → Node
  | .looseCommit policy sender id commit blob => (node.recvCommit policy sender id commit blob).1
  | .fragment policy sender id signed blob => (node.recvFragment policy sender id signed blob).1
  | .batchSyncResponse policy sender id diff => (node.recvBatchSyncResponse policy sender id diff).1
  | .heads depthMetric id => (node.headsOrHydrate depthMetric id).1
  | .evict id => node.evict id

def Node.run (node : Node) (events : List Event) : Node := events.foldl Node.step node

/-- **The item is accepted for the document** of the message. -/
def Event.Accepts : Event → SedimentreeId → Item → Prop
  | looseCommit policy sender id commit blob, other, item =>
    other = id ∧ AcceptedOf (fun author => policy sender author id) [(commit, blob)] [] item
  | fragment policy sender id signed blob, other, item =>
    other = id ∧ AcceptedOf (fun author => policy sender author id) [] [(signed, blob)] item
  | batchSyncResponse policy sender id diff, other, item =>
    other = id ∧ AcceptedOf (fun author => policy sender author id) diff.missingCommits
      diff.missingFragments item
  | heads _ _, _, _ => False
  | evict _, _, _ => False

variable {node : Node} {allowed : SedimentreeId → Item → Prop} {event : Event}

section

variable (within : node.Within allowed)

include within

theorem Node.Within.getOrHydrate (depthMetric : DepthMetric)
    (id : SedimentreeId) : (node.getOrHydrate depthMetric id).1.Within allowed := by
  unfold Node.getOrHydrate
  split
  · rename_i owner resident
    exact within.install fun item has =>
      within id item (Or.inr ⟨owner, resident, MinimizedSedimentree.has_ensureMinimized has⟩)
  · split
    · split
      · exact within.install fun item has => absurd has not_has_empty
      · exact within
    · refine within.install fun item has => ?_
      change ((node.storage.storedTree id).minimize depthMetric).Has item at has
      rw [minimize_eq_minimizeInPlace] at has
      exact within id item (Or.inl (has_of_storedTree (has_minimizeInPlace has)))

theorem Node.Within.headsOrHydrate (depthMetric : DepthMetric)
    (id : SedimentreeId) : (node.headsOrHydrate depthMetric id).1.Within allowed := by
  unfold Node.headsOrHydrate
  split
  · rename_i owner resident
    exact within.install fun item has =>
      within id item (Or.inr ⟨owner, resident, MinimizedSedimentree.has_ensureMinimized has⟩)
  · exact within.getOrHydrate depthMetric id

theorem Node.Within.recvBatchSyncResponse {policy : Policy}
    {sender : PeerId} {id : SedimentreeId} {diff : SyncDiff}
    (allows : ∀ item, AcceptedOf (fun author => policy sender author id) diff.missingCommits
      diff.missingFragments item → allowed id item) :
    (node.recvBatchSyncResponse policy sender id diff).1.Within allowed := by
  obtain ⟨collectsCommits, collectsFragments⟩ :=
    collects_diff (fun author => policy sender author id) diff
  exact Node.Within.flushAll _ within fun author item ofAuthor =>
    allows item (acceptedOf_of_ofAuthor collectsCommits collectsFragments ofAuthor)

theorem Node.Within.step (accepts : ∀ id item, event.Accepts id item → allowed id item) :
    (node.step event).Within allowed := by
  cases event with
  | looseCommit policy sender id commit blob =>
    exact within.recvSigned fun verified accepted => within.insertCommitLocally
      (accepts id _ ⟨rfl, .commit (mem_singleton_self _) accepted⟩)
  | fragment policy sender id signed blob =>
    exact within.recvSigned fun verified accepted => within.insertFragmentLocally
      (accepts id _ ⟨rfl, .fragment (mem_singleton_self _) accepted⟩)
  | batchSyncResponse policy sender id diff =>
    exact within.recvBatchSyncResponse fun item accepted => accepts id item ⟨rfl, accepted⟩
  | heads depthMetric id => exact within.headsOrHydrate depthMetric id
  | evict id => exact within.evict

end

theorem Node.Within.run (events : List Event) {node : Node} (within : node.Within allowed)
    (accepts : ∀ event ∈ events, ∀ id item, event.Accepts id item → allowed id item) :
    (node.run events).Within allowed := by
  induction events generalizing node with
  | nil => exact within
  | cons event events ih =>
    exact ih (within.step (accepts event mem_cons_self))
      fun later member => accepts later (mem_cons_of_mem _ member)

theorem Node.recvCommit_storage {policy : Policy} {sender : PeerId} {id : SedimentreeId}
    {commit : Signed LooseCommit} {blob : Blob} {verified : VerifiedMeta LooseCommit}
    (isVerified : accept (fun author => policy sender author id) (commit, blob) = some verified)
    (node : Node) : (node.recvCommit policy sender id commit blob).1.storage =
      (node.storage.saveBatch id [verified] []).1 := by
  unfold Node.recvCommit
  rw [recvSigned_fst, isVerified]
  exact insertLocally_storage _ _ _

theorem Node.recvFragment_storage {policy : Policy} {sender : PeerId} {id : SedimentreeId}
    {signed : Signed Fragment} {blob : Blob} {verified : VerifiedMeta Fragment}
    (isVerified : accept (fun author => policy sender author id) (signed, blob) = some verified)
    (node : Node) : (node.recvFragment policy sender id signed blob).1.storage =
      (node.storage.saveBatch id [] [verified]).1 := by
  unfold Node.recvFragment
  rw [recvSigned_fst, isVerified]
  exact insertLocally_storage _ _ _

theorem Event.Accepts.exists_digest {id : SedimentreeId} {item : Item}
    (accepts : event.Accepts id item) (node : Node) :
    ∃ found, (node.step event).storage.Has id found ∧ found.SameDigest item := by
  cases event with
  | looseCommit policy sender other commit blob =>
    obtain ⟨rfl, accepted⟩ := accepts
    cases accepted with
    | commit listed isVerified =>
      obtain rfl := mem_singleton.mp listed
      show ∃ found, (node.recvCommit policy sender id commit blob).1.storage.Has id found ∧ _
      rw [recvCommit_storage isVerified]
      exact exists_digest_saveBatch _ _ (.commit (mem_singleton_self _))
    | fragment listed => exact nomatch listed
  | fragment policy sender other signed blob =>
    obtain ⟨rfl, accepted⟩ := accepts
    cases accepted with
    | commit listed => exact nomatch listed
    | fragment listed isVerified =>
      obtain rfl := mem_singleton.mp listed
      show ∃ found, (node.recvFragment policy sender id signed blob).1.storage.Has id found ∧ _
      rw [recvFragment_storage isVerified]
      exact exists_digest_saveBatch _ _ (.fragment (mem_singleton_self _))
  | batchSyncResponse policy sender other diff =>
    obtain ⟨rfl, accepted⟩ := accepts
    obtain ⟨collectsCommits, collectsFragments⟩ :=
      collects_diff (fun author => policy sender author id) diff
    obtain ⟨author, isKey, cached, ofAuthor⟩ :=
      exists_ofAuthor collectsCommits collectsFragments accepted
    exact flushAll_digest _ (IterOrder.mem_list.mpr isKey) cached ofAuthor
  | heads depthMetric other => exact accepts.elim
  | evict other => exact accepts.elim

/-! ### Scope -/

/-- **Every item is under the document that it was signed for.** -/
def Node.ScopeBound (node : Node) : Prop := node.Within fun id item => item.sedimentreeId = id

/-- **What the message brings and is accepted was signed for the document of the message.** -/
def Event.Addressed (event : Event) : Prop :=
  ∀ id item, event.Accepts id item → item.sedimentreeId = id

/-- The item is held at the start or brought by an event. -/
def Brought (node : Node) (events : List Event) (id : SedimentreeId) (item : Item) : Prop :=
  node.Holds id item ∨ ∃ event ∈ events, event.Accepts id item

/-- The hash has no collision among the items of the run. -/
def CollisionFree (node : Node) (events : List Event) : Prop :=
  ∀ id first second, Brought node events id first → Brought node events id second →
    first.SameDigest second → first = second

theorem Node.run_take_succ (node : Node) {events : List Event} {index : Nat} {event : Event}
    (at_index : events[index]? = some event) :
    node.run (events.take (index + 1)) = (node.run (events.take index)).step event := by
  unfold Node.run
  rw [take_add_one, at_index, foldl_append]
  rfl

theorem Event.addressed_of_scopeBound {node : Node} {events : List Event}
    (collisionFree : CollisionFree node events)
    (bound : ∀ count, (node.run (events.take count)).ScopeBound) {event : Event}
    (member : event ∈ events) : event.Addressed := by
  intro id item accepts
  obtain ⟨index, at_index⟩ := List.getElem?_of_mem member
  have after := bound (index + 1)
  have brought : (node.run (events.take (index + 1))).Within (Brought node events) :=
    Node.Within.run _ (fun _ _ held => Or.inl held) fun earlier listed _ _ accepted =>
      Or.inr ⟨earlier, mem_of_mem_take listed, accepted⟩
  rw [node.run_take_succ at_index] at after brought
  obtain ⟨found, stored, same⟩ := accepts.exists_digest (node.run (events.take index))
  have isItem : found = item := collisionFree id found item (brought id found (Or.inl stored))
    (Or.inr ⟨event, member, accepts⟩) same
  rw [← isItem]
  exact after id found (Or.inl stored)

/-- **A node stays scope bound exactly when what it accepts is addressed**: in every run from a scope
bound state, whatever the policies, in which every accepted item was signed for the document of its
message, every state is scope bound; and unless the hash has a collision, only in those. -/
theorem scope_bound_iff_addressed (node : Node) (start : node.ScopeBound) (events : List Event) :
    ((∀ event ∈ events, event.Addressed) → ∀ count, (node.run (events.take count)).ScopeBound) ∧
    (CollisionFree node events → (∀ count, (node.run (events.take count)).ScopeBound) →
      ∀ event ∈ events, event.Addressed) := by
  refine ⟨fun addressed count => ?_, fun collisionFree bound event member => ?_⟩
  · exact Node.Within.run _ start fun event listed =>
      addressed event (List.mem_of_mem_take listed)
  · exact Event.addressed_of_scopeBound collisionFree bound member

end Runs

/-! ### A commit of another document -/

def emptyNode : Node := ⟨.new, fun _ => none⟩

theorem emptyNode_holds (id : SedimentreeId) (item : Item) : ¬ emptyNode.Holds id item := by
  intro held
  rcases held with stored | ⟨owner, resident, _⟩
  · cases item with
    | commit payload | fragment payload => exact ItemStore.not_has_empty id payload stored
  · exact nomatch resident

def oneByte : Blob := ⟨[1]⟩

/-- A commit of document `1`. -/
def commitOfOne : LooseCommit := ⟨⟨1⟩, ⟨5⟩, ∅, BlobMeta.new oneByte⟩

/-- The commit as key `1` signed it. -/
def signedOfOne : Signed LooseCommit := .sealPayload (signerOf 1) commitOfOne

def pushTo (id : SedimentreeId) : Event :=
  .looseCommit (fun _ _ _ => true) ⟨9⟩ id signedOfOne oneByte

def respondTo (id : SedimentreeId) : Event :=
  .batchSyncResponse (fun _ _ _ => true) ⟨9⟩ id ⟨[(signedOfOne, oneByte)], [], ⟨[], []⟩⟩

section OneItem

variable [Ed25519] [IterOrder PeerId]

theorem acceptedOf_signedOfOne (accepted : (accept (fun _ => true) (signedOfOne, oneByte)).map
      VerifiedMeta.payload = some commitOfOne) {item : Item} :
    AcceptedOf (fun _ => true) [(signedOfOne, oneByte)] [] item ↔ item = .commit commitOfOne := by
  obtain ⟨verified, isVerified, payload⟩ := Option.map_eq_some_iff.mp accepted
  refine ⟨fun isAccepted => ?_, fun isCommit => ?_⟩
  · cases isAccepted with
    | commit listed found =>
      obtain rfl := mem_singleton.mp listed
      obtain rfl := Option.some.inj (isVerified.symm.trans found)
      rw [payload]
    | fragment listed => exact nomatch listed
  · rw [isCommit, ← payload]
    exact .commit (mem_singleton_self _) isVerified

theorem stored_of_single {event : Event} {id : SedimentreeId} {only : Item}
    (accepts : ∀ other item, event.Accepts other item ↔ other = id ∧ item = only) :
    (emptyNode.run [event]).storage.Has id only := by
  obtain ⟨found, stored, -⟩ := ((accepts id only).mpr ⟨rfl, rfl⟩).exists_digest emptyNode
  have brought : (emptyNode.step event).Within event.Accepts :=
    Node.Within.step (fun id item held => absurd held (emptyNode_holds id item))
      fun _ _ accepted => accepted
  rw [← ((accepts id found).mp (brought id found (Or.inl stored))).2]
  exact stored

end OneItem

end Scope

attribute [local instance] IterOrder.ascending eightBytes lastBytes shownKeys

theorem accept_signedOfOne :
    (accept (fun _ => true) (signedOfOne, oneByte)).map VerifiedMeta.payload = some commitOfOne := by
  decide +kernel

/-- **A commit that was signed for document `1` is taken into document `2`**, from a push and from a
response. -/
theorem replayed_commit_stored : emptyNode.ScopeBound ∧ commitOfOne.sedimentreeId = ⟨1⟩ ∧
      ∀ event ∈ [pushTo ⟨2⟩, respondTo ⟨2⟩],
        (emptyNode.run [event]).storage.Has ⟨2⟩ (.commit commitOfOne) ∧
          ¬ (emptyNode.run [event]).ScopeBound := by
  refine ⟨fun id item held => absurd held (emptyNode_holds id item), rfl, fun event listed => ?_⟩
  have stored : (emptyNode.run [event]).storage.Has ⟨2⟩ (.commit commitOfOne) := by
    refine stored_of_single fun id item => ?_
    rcases List.mem_pair.mp listed with rfl | rfl
    · exact and_congr_right fun _ => acceptedOf_signedOfOne accept_signedOfOne
    · exact and_congr_right fun _ => acceptedOf_signedOfOne accept_signedOfOne
  refine ⟨stored, fun bound => ?_⟩
  have foreign : (⟨1⟩ : SedimentreeId) = ⟨2⟩ := bound ⟨2⟩ _ (Or.inl stored)
  exact absurd foreign (by decide)

theorem scope_bound_iff_addressed_push :
    emptyNode.ScopeBound ∧ ∀ count, (emptyNode.run ([pushTo ⟨1⟩].take count)).ScopeBound := by
  have start : emptyNode.ScopeBound := fun id item held => absurd held (emptyNode_holds id item)
  refine ⟨start, (scope_bound_iff_addressed emptyNode start [pushTo ⟨1⟩]).1 fun event listed => ?_⟩
  obtain rfl := List.mem_singleton.mp listed
  intro id item accepts
  obtain ⟨isId, accepted⟩ : id = ⟨1⟩ ∧ _ := accepts
  rw [(acceptedOf_signedOfOne accept_signedOfOne).mp accepted, isId]
  rfl

end Subduction
