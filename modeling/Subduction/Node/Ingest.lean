/-
**How a node takes in what it receives.**

A node has a storage and a cache of resident trees. Every write hydrates the tree from storage on a
miss, judges whether the item is new, saves it, and adds it to the resident tree. All of it happens
under the document of the message; the document that an item was signed for is not read.

* **`collect_collects`** — what the loops of a batch collect is what they accept.
-/

import Subduction.Connection.Message
import Subduction.Node.Storage

set_option linter.unusedSectionVars false

namespace Subduction

open VerifiedMeta Finset

/-- `StoragePolicy::authorize_put`, of the requestor, the author and the document. -/
abbrev Policy := PeerId → VerifyingKey → SedimentreeId → Bool

/-- The items of a response that were not present. -/
structure Ingested where
  commits : List (Signed LooseCommit × Blob)
  fragments : List (Signed Fragment × Blob)

def Ingested.extend (ingested later : Ingested) : Ingested :=
  ⟨ingested.commits ++ later.commits, ingested.fragments ++ later.fragments⟩

variable [Blake3] [Bijou64Codec]

/-- **A node**: its storage and its resident trees. -/
structure Node where
  storage : MemoryStorage
  sedimentrees : SedimentreeId → Option MinimizedSedimentree

namespace Node

variable [IterOrder CommitId] [IterOrder (Digest LooseCommit)] [IterOrder (Digest Fragment)]

/-! ### The resident trees -/

def install (node : Node) (id : SedimentreeId) (owner : MinimizedSedimentree) : Node :=
  { node with sedimentrees := Function.update node.sedimentrees id (some owner) }

def evict (node : Node) (id : SedimentreeId) : Node :=
  { node with sedimentrees := Function.update node.sedimentrees id none }

/-- `with_hydrated_ref`, with `load_tree` on a miss. -/
def withHydratedRef {R : Type} (node : Node) (id : SedimentreeId) (inspect : MinimizedSedimentree → R) :
    Node × Option R :=
  match node.sedimentrees id with
  | some owner => (node, some (inspect owner))
  | none =>
    match node.storage.loadTree id with
    | none => (node, none)
    | some loaded => (node.install id loaded, some (inspect loaded))

/-- `with_entry_hydrated`, with `load_tree` on a miss. -/
def withEntryHydrated (node : Node) (id : SedimentreeId)
    (mutate : MinimizedSedimentree → MinimizedSedimentree) : Node :=
  match node.sedimentrees id with
  | some owner => node.install id (mutate owner)
  | none => node.install id (mutate ((node.storage.loadTree id).getD ∅))

/-- `get_or_hydrate`: the minimal tree; a tree without items exists where its document is
registered. -/
def getOrHydrate (node : Node) (depthMetric : DepthMetric) (id : SedimentreeId) :
    Node × Option Sedimentree :=
  match node.sedimentrees id with
  | some owner =>
    (node.install id (owner.minimized depthMetric).1, some (owner.minimized depthMetric).2)
  | none =>
    if (node.storage.loadLooseCommitMetas id).isEmpty && (node.storage.loadFragmentMetas id).isEmpty
    then
      if id ∈ node.storage.ids then (node.install id (.alreadyMinimal ∅), some ∅) else (node, none)
    else
      let hydrated := (node.storage.storedTree id).minimize depthMetric
      (node.install id (.alreadyMinimal hydrated), some hydrated)

/-- `heads_or_hydrate`. -/
def headsOrHydrate (node : Node) (depthMetric : DepthMetric) (id : SedimentreeId) :
    Node × Option (List CommitId) :=
  match node.sedimentrees id with
  | some owner => (node.install id (owner.heads depthMetric).1, some (owner.heads depthMetric).2)
  | none =>
    let (hydrated, tree) := node.getOrHydrate depthMetric id
    (hydrated, tree.map Sedimentree.headsAssumingMinimal)

/-! ### One item -/

/-- Newness against the tree before the save, the save, and the change of the resident tree. -/
def insertLocally (node : Node) (id : SedimentreeId) (known : Sedimentree → Bool)
    (save : MemoryStorage → MemoryStorage) (add : MinimizedSedimentree → MinimizedSedimentree) :
    Node × Bool :=
  let (hydrated, wasAdded) := node.withHydratedRef id fun owner => !known owner.tree
  let saved := { hydrated with storage := save hydrated.storage }
  (saved.withEntryHydrated id add, wasAdded.getD true)

/-- `insert_commit_locally`: also whether the commit was new. -/
def insertCommitLocally (node : Node) (id : SedimentreeId) (verified : VerifiedMeta LooseCommit) :
    Node × Bool :=
  node.insertLocally id (fun tree => (tree.commit? verified.payload.head).isSome)
    (fun storage => storage.saveLooseCommit id verified)
    fun owner => (owner.addCommit verified.payload).1

/-- `insert_fragment_locally`: also whether the fragment was new. -/
def insertFragmentLocally (node : Node) (id : SedimentreeId) (verified : VerifiedMeta Fragment) :
    Node × Bool :=
  node.insertLocally id (fun tree => (tree.fragment? verified.payload.head).isSome)
    (fun storage => storage.saveFragment id verified)
    fun owner => (owner.addFragment verified.payload).1

variable [Ed25519]

/-- A signed item: signature, policy, blob, insertion. The result is whether it was new, or nothing
where it was refused. -/
def recvSigned {α : Type} [DecodeFields α] [HasBlobMeta α] (node : Node) (authorize : VerifyingKey → Bool)
    (signed : Signed α) (blob : Blob) (insert : VerifiedMeta α → Node × Bool) : Node × Option Bool :=
  match signed.tryVerify with
  | .error _ => (node, none)
  | .ok verified =>
    if authorize verified.signed.issuer then
      match VerifiedMeta.new verified blob with
      | .error _ => (node, none)
      | .ok verifiedMeta => ((insert verifiedMeta).1, some (insert verifiedMeta).2)
    else (node, none)

/-- `recv_commit`, up to the fan-out of a new commit. -/
def recvCommit (node : Node) (policy : Policy) (sender : PeerId) (id : SedimentreeId)
    (signedCommit : Signed LooseCommit) (blob : Blob) : Node × Option Bool :=
  node.recvSigned (fun author => policy sender author id) signedCommit blob
    (node.insertCommitLocally id)

/-- `recv_fragment`, up to the fan-out of a new fragment. -/
def recvFragment (node : Node) (policy : Policy) (sender : PeerId) (id : SedimentreeId)
    (signedFragment : Signed Fragment) (blob : Blob) : Node × Option Bool :=
  node.recvSigned (fun author => policy sender author id) signedFragment blob
    (node.insertFragmentLocally id)

end Node

/-! ### A batch -/

section Batch

variable {α : Type} [DecodeFields α] [HasBlobMeta α] [Ed25519]

/-- The authors with a cached putter, and the verified items by author. -/
structure Collected (α : Type) [DecodeFields α] [HasBlobMeta α] where
  putterCache : Finset PeerId
  byAuthor : FinMap PeerId (List (VerifiedMeta α))

/-- One round of the loops over the items of a response: an item that does not verify, whose blob
does not match or whose author is refused is skipped. -/
def collectItem (authorize : VerifyingKey → Bool) (collected : Collected α) (item : Signed α × Blob) :
    Collected α :=
  match item.1.tryVerify with
  | .error _ => collected
  | .ok verified =>
    match VerifiedMeta.new verified item.2 with
    | .error _ => collected
    | .ok verifiedMeta =>
      let authorId := verifiedMeta.verifiedAuthor.peerId
      let pushed := collected.byAuthor.insert authorId
        ((collected.byAuthor.get? authorId).getD [] ++ [verifiedMeta])
      if authorId ∈ collected.putterCache then ⟨collected.putterCache, pushed⟩
      else if authorize verifiedMeta.verifiedAuthor then
        ⟨insert authorId collected.putterCache, pushed⟩
      else collected

def collect (authorize : VerifyingKey → Bool) (collected : Collected α) (items : List (Signed α × Blob)) :
    Collected α :=
  items.foldl (collectItem authorize) collected

/-- The items whose head is not among the seen ones nor the head of an earlier item. -/
def firstSeen [Headed α] (seen : Finset CommitId) : List (VerifiedMeta α) → List (VerifiedMeta α)
  | [] => []
  | verified :: rest =>
    if Headed.head verified.payload ∈ seen then firstSeen seen rest
    else verified :: firstSeen (insert (Headed.head verified.payload) seen) rest

end Batch

namespace Node

variable [IterOrder CommitId] [IterOrder (Digest LooseCommit)] [IterOrder (Digest Fragment)]

/-- The items of one author: newness against the tree before the save, one save of the batch, and the
changes of the resident tree. -/
def flushAuthor (node : Node) (id : SedimentreeId) (commits : List (VerifiedMeta LooseCommit))
    (fragments : List (VerifiedMeta Fragment)) : Node × Ingested :=
  let (hydrated, known) := node.withHydratedRef id fun owner =>
    (((commits.map (·.payload.head)).filter fun head => (owner.tree.commit? head).isSome).toFinset,
      ((fragments.map (·.payload.head)).filter fun head => (owner.tree.fragment? head).isSome).toFinset)
  let (seenCommits, seenFragments) := known.getD (∅, ∅)
  let saved := { hydrated with storage := (hydrated.storage.saveBatch id commits fragments).1 }
  let withCommits := (commits.map VerifiedMeta.payload).foldl
    (fun node commit => node.withEntryHydrated id fun owner => (owner.addCommit commit).1) saved
  let withFragments := (fragments.map VerifiedMeta.payload).foldl
    (fun node fragment => node.withEntryHydrated id fun owner => (owner.addFragment fragment).1)
    withCommits
  (withFragments,
    ⟨(firstSeen seenCommits commits).map fun verified => (verified.signed, verified.blob),
      (firstSeen seenFragments fragments).map fun verified => (verified.signed, verified.blob)⟩)

/-- The round of one author, in the loop over all of them. -/
def flushNext (id : SedimentreeId) (putterCache : Finset PeerId)
    (commitsByAuthor : FinMap PeerId (List (VerifiedMeta LooseCommit)))
    (fragmentsByAuthor : FinMap PeerId (List (VerifiedMeta Fragment))) (state : Node × Ingested)
    (author : PeerId) : Node × Ingested :=
  if author ∈ putterCache then
    let (flushed, later) := state.1.flushAuthor id ((commitsByAuthor.get? author).getD [])
      ((fragmentsByAuthor.get? author).getD [])
    (flushed, state.2.extend later)
  else state

variable [Ed25519] [IterOrder PeerId]

/-- `recv_batch_sync_response`. -/
def recvBatchSyncResponse (node : Node) (policy : Policy) (sender : PeerId) (id : SedimentreeId)
    (diff : SyncDiff) : Node × Ingested :=
  let authorize := fun author => policy sender author id
  let commits := collect authorize ⟨∅, ∅⟩ diff.missingCommits
  let fragments := collect authorize ⟨commits.putterCache, ∅⟩ diff.missingFragments
  let allAuthors := IterOrder.list (commits.byAuthor.keys ∪ fragments.byAuthor.keys)
  allAuthors.foldl (flushNext id fragments.putterCache commits.byAuthor fragments.byAuthor)
    (node, ⟨[], []⟩)

end Node

/-! ### What is accepted -/

section Accept

variable {α : Type} [DecodeFields α] [HasBlobMeta α] [Ed25519] {authorize : VerifyingKey → Bool}

/-- **The verified item that is taken from a signed one**: its signature and blob are right and its
author is allowed. -/
def accept (authorize : VerifyingKey → Bool) (item : Signed α × Blob) : Option (VerifiedMeta α) :=
  match item.1.tryVerify with
  | .error _ => none
  | .ok verified =>
    if authorize verified.signed.issuer then (VerifiedMeta.new verified item.2).toOption else none

theorem Node.recvSigned_eq (node : Node) (signed : Signed α) (blob : Blob)
    (insert : VerifiedMeta α → Node × Bool) :
    node.recvSigned authorize signed blob insert = match accept authorize (signed, blob) with
      | some verifiedMeta => ((insert verifiedMeta).1, some (insert verifiedMeta).2)
      | none => (node, none) := by
  unfold Node.recvSigned accept
  cases signed.tryVerify with
  | error error => rfl
  | ok verified =>
    dsimp only
    by_cases allowed : authorize verified.signed.issuer = true
    · rw [if_pos allowed, if_pos allowed]
      cases VerifiedMeta.new verified blob with
      | error error => rfl
      | ok verifiedMeta => rfl
    · rw [if_neg allowed, if_neg allowed]

theorem Node.recvSigned_fst (node : Node) (signed : Signed α) (blob : Blob)
    (insert : VerifiedMeta α → Node × Bool) :
    (node.recvSigned authorize signed blob insert).1 = match accept authorize (signed, blob) with
      | some verifiedMeta => (insert verifiedMeta).1
      | none => node := by
  rw [Node.recvSigned_eq]
  cases accept authorize (signed, blob) with
  | some verifiedMeta => rfl
  | none => rfl

/-- The item is collected for its author. -/
def Collected.Has (collected : Collected α) (verified : VerifiedMeta α) : Prop :=
  ∃ items, collected.byAuthor.get? verified.verifiedAuthor.peerId = some items ∧ verified ∈ items

/-- **The authors with a putter are allowed, every author with items has one**, and the items stand
under their authors. -/
structure Collected.Inv (authorize : VerifyingKey → Bool) (collected : Collected α) : Prop where
  allowed : ∀ author : VerifyingKey, author.peerId ∈ collected.putterCache → authorize author = true
  cached : ∀ author ∈ collected.byAuthor.keys, author ∈ collected.putterCache
  authored : ∀ author items, collected.byAuthor.get? author = some items →
    ∀ verified ∈ items, verified.verifiedAuthor.peerId = author

/-- The collection with one more item of its author. -/
def Collected.push (collected : Collected α) (verified : VerifiedMeta α) : Collected α :=
  ⟨insert verified.verifiedAuthor.peerId collected.putterCache,
    collected.byAuthor.insert verified.verifiedAuthor.peerId
      ((collected.byAuthor.get? verified.verifiedAuthor.peerId).getD [] ++ [verified])⟩

variable {collected : Collected α} {verified : VerifiedMeta α}

theorem collectItem_eq (inv : collected.Inv authorize) (item : Signed α × Blob) :
    collectItem authorize collected item = match accept authorize item with
      | some verified => collected.push verified
      | none => collected := by
  unfold collectItem accept
  cases item.1.tryVerify with
  | error error => rfl
  | ok verified =>
    dsimp only
    cases found : VerifiedMeta.new verified item.2 with
    | error error => cases authorize verified.signed.issuer <;> rfl
    | ok verifiedMeta =>
      have author : verifiedMeta.verifiedAuthor = verified.signed.issuer := by
        rw [VerifiedMeta.verifiedAuthor, VerifiedMeta.signed, (new_eq_ok found).1]
      dsimp only
      rw [← author]
      by_cases cached : verifiedMeta.verifiedAuthor.peerId ∈ collected.putterCache
      · rw [if_pos cached, if_pos (inv.allowed _ cached)]
        show _ = collected.push verifiedMeta
        unfold Collected.push
        rw [insert_eq_of_mem cached]
      · rw [if_neg cached]
        by_cases allowed : authorize verifiedMeta.verifiedAuthor = true
        · rw [if_pos allowed, if_pos allowed]
          rfl
        · rw [if_neg allowed, if_neg allowed]

theorem accept_eq_some {item : Signed α × Blob} (accepted : accept authorize item = some verified) :
    item.1.tryVerify = .ok verified.verified ∧ verified.blob = item.2 ∧
      authorize verified.verifiedAuthor = true := by
  unfold accept at accepted
  split at accepted
  · exact nomatch accepted
  · rename_i signature verifies
    by_cases allowed : authorize signature.signed.issuer = true
    · rw [if_pos allowed] at accepted
      cases found : VerifiedMeta.new signature item.2 with
      | error error =>
        rw [found] at accepted
        exact nomatch accepted
      | ok verifiedMeta =>
        rw [found] at accepted
        obtain rfl : verifiedMeta = verified := Option.some.inj accepted
        rw [VerifiedMeta.verifiedAuthor, VerifiedMeta.signed, (new_eq_ok found).1]
        exact ⟨verifies, (new_eq_ok found).2, allowed⟩
    · rw [if_neg allowed] at accepted
      exact nomatch accepted

theorem accept_allowed {item : Signed α × Blob}
    (accepted : accept authorize item = some verified) : authorize verified.verifiedAuthor = true :=
  (accept_eq_some accepted).2.2

theorem Collected.Inv.push (inv : collected.Inv authorize)
    (allowed : authorize verified.verifiedAuthor = true) :
    (collected.push verified).Inv authorize := by
  refine ⟨fun author member => ?_, fun author member => ?_, fun author items stored => ?_⟩
  · rcases mem_insert.mp member with same | old
    · rw [VerifyingKey.peerId_injective same]
      exact allowed
    · exact inv.allowed author old
  · rw [Collected.push, FinMap.keys_insert] at member
    exact (mem_insert.mp member).elim (fun same => same ▸ mem_insert_self _ _)
      fun old => mem_insert_of_mem (inv.cached author old)
  · change (collected.byAuthor.insert _ _).get? author = some items at stored
    rcases FinMap.of_get?_insert stored with ⟨same, rfl⟩ | ⟨-, older⟩
    · intro other member
      rcases List.mem_append.mp member with old | new
      · cases before : collected.byAuthor.get? verified.verifiedAuthor.peerId with
        | none =>
          rw [before] at old
          exact nomatch old
        | some earlier =>
          rw [before] at old
          exact same ▸ inv.authored _ earlier before other old
      · rw [List.mem_singleton.mp new, same]
    · exact inv.authored author items older

theorem Collected.has_push {other : VerifiedMeta α} :
    (collected.push verified).Has other ↔ collected.Has other ∨ other = verified := by
  unfold Collected.Has Collected.push
  simp only [FinMap.get?_insert]
  by_cases same : other.verifiedAuthor.peerId = verified.verifiedAuthor.peerId
  · simp only [same]
    cases collected.byAuthor.get? verified.verifiedAuthor.peerId with
    | none => simp
    | some earlier => simp
  · simp only [if_neg same]
    refine ⟨Or.inl, fun either => either.resolve_right fun isVerified => same ?_⟩
    rw [isVerified]

theorem Collected.Inv.collect (items : List (Signed α × Blob)) (inv : collected.Inv authorize) :
    (collect authorize collected items).Inv authorize ∧
      collected.putterCache ⊆ (collect authorize collected items).putterCache ∧
      ∀ verified, (collect authorize collected items).Has verified ↔
        collected.Has verified ∨ ∃ item ∈ items, accept authorize item = some verified := by
  induction items generalizing collected with
  | nil => exact ⟨inv, Finset.Subset.refl _, fun verified => by simp [Subduction.collect]⟩
  | cons item items ih =>
    have unfolded : Subduction.collect authorize collected (item :: items) =
        Subduction.collect authorize (collectItem authorize collected item) items := rfl
    rw [unfolded, collectItem_eq inv item]
    cases accepted : accept authorize item with
    | none =>
      obtain ⟨later, cached, collects⟩ := ih inv
      refine ⟨later, cached, fun verified => ?_⟩
      rw [collects verified]
      simp [accepted]
    | some first =>
      obtain ⟨later, cached, collects⟩ := ih (inv.push (accept_allowed accepted))
      refine ⟨later, (subset_insert _ _).trans cached, fun verified => ?_⟩
      rw [collects verified, Collected.has_push]
      simp [accepted, or_assoc, eq_comm]

theorem Collected.inv_empty {cache : Finset PeerId}
    (allowed : ∀ author : VerifyingKey, author.peerId ∈ cache → authorize author = true) :
    (⟨cache, ∅⟩ : Collected α).Inv authorize :=
  ⟨allowed, fun _ member => absurd member (notMem_empty _), fun _ _ stored => nomatch stored⟩

theorem Collected.Inv.has_of_mem (inv : collected.Inv authorize)
    {author : PeerId}
    (member : verified ∈ (collected.byAuthor.get? author).getD []) : collected.Has verified := by
  cases stored : collected.byAuthor.get? author with
  | none =>
    rw [stored] at member
    exact nomatch member
  | some items =>
    rw [stored] at member
    refine ⟨items, ?_, member⟩
    rw [inv.authored author items stored verified member]
    exact stored

theorem Collected.Inv.mem_of_has (inv : collected.Inv authorize) (has : collected.Has verified) :
    verified.verifiedAuthor.peerId ∈ collected.byAuthor.keys ∧
      verified.verifiedAuthor.peerId ∈ collected.putterCache ∧
      verified ∈ (collected.byAuthor.get? verified.verifiedAuthor.peerId).getD [] := by
  obtain ⟨items, stored, member⟩ := has
  have isKey := FinMap.mem_keys_of_get? stored
  refine ⟨isKey, inv.cached _ isKey, ?_⟩
  rw [stored]
  exact member

/-- **The collection of a loop that starts with the cache**: what it accepts, each item under the name
of its author, who has a putter. -/
structure Collects (authorize : VerifyingKey → Bool) (cache : Finset PeerId)
    (items : List (Signed α × Blob)) (collected : Collected α) : Prop where
  allowed : ∀ author : VerifyingKey, author.peerId ∈ collected.putterCache → authorize author = true
  cached : cache ⊆ collected.putterCache
  sound : ∀ author, ∀ verified ∈ (collected.byAuthor.get? author).getD [],
    ∃ item ∈ items, accept authorize item = some verified
  complete : ∀ item ∈ items, ∀ verified, accept authorize item = some verified →
    verified.verifiedAuthor.peerId ∈ collected.byAuthor.keys ∧
      verified.verifiedAuthor.peerId ∈ collected.putterCache ∧
      verified ∈ (collected.byAuthor.get? verified.verifiedAuthor.peerId).getD []

theorem collect_collects (items : List (Signed α × Blob)) {cache : Finset PeerId}
    (allowed : ∀ author : VerifyingKey, author.peerId ∈ cache → authorize author = true) :
    Collects authorize cache items (collect authorize ⟨cache, ∅⟩ items) := by
  obtain ⟨inv, cached, collects⟩ := (Collected.inv_empty (α := α) allowed).collect items
  refine ⟨inv.allowed, cached, fun author verified member => ?_,
    fun item member verified accepted => inv.mem_of_has ?_⟩
  · exact ((collects verified).mp (inv.has_of_mem member)).resolve_left
      fun ⟨_, stored, _⟩ => nomatch stored
  · exact (collects verified).mpr (Or.inr ⟨item, member, accepted⟩)

end Accept

end Subduction
