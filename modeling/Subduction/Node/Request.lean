/-
**Answering a batch sync request.**

A responder diffs its minimal tree against the summary of the requestor and sends what that lacks. A
resident tree is diffed as it is, and the items are read from storage, one by one or in a scan of the
whole tables; on a miss both tables are loaded, and the tree is built from them and installed. All
three take the first item of a head that the storage lists. A tree that is hydrated or ingested keeps
the item of least digest.

Main result: `paths_agree_iff`.
-/

import Subduction.Node.Removal

set_option linter.unusedSectionVars false

namespace Subduction

open ItemStore Sedimentree List FinMap

/-! ### Reading items -/

section Store

variable {α : Type} [Blake3] [DecodeFields α] [HasBlobMeta α] [Headed α]

def VerifiedMeta.wire (verified : VerifiedMeta α) : Signed α × Blob := (verified.signed, verified.blob)

/-- `load_loose_commits`, `load_fragments`: the items in the order of the table. -/
def ItemStore.load [IterOrder (Digest α)] (store : ItemStore α) (id : SedimentreeId) :
    List (VerifiedMeta α) := (store.items id).values

/-- `load_loose_commit`, `load_fragment`: the first item of the head. -/
def ItemStore.loadOne [IterOrder (Digest α)] (store : ItemStore α) (id : SedimentreeId)
    (head : CommitId) : Option (VerifiedMeta α) :=
  (store.load id).find? fun verified => decide (Headed.head verified.payload = head)

/-- The first item of every head that is wanted. -/
def firstByHead (wanted : CommitId → Bool) (items : List (VerifiedMeta α)) :
    FinMap CommitId (VerifiedMeta α) :=
  items.foldl (fun byId verified =>
    if wanted (Headed.head verified.payload) then byId.orInsert (Headed.head verified.payload) verified
    else byId) ∅

variable [IterOrder (Digest α)]

/-- Point reads, which are issued in chunks and answered in order. -/
def ItemStore.pointReads (store : ItemStore α) (id : SedimentreeId) (heads : List CommitId) :
    List (Signed α × Blob) :=
  heads.filterMap fun head => (store.loadOne id head).map VerifiedMeta.wire

/-- The bulk scan; a table that nothing is wanted from is not scanned. -/
def ItemStore.bulkScan [IterOrder CommitId] (store : ItemStore α) (id : SedimentreeId)
    (heads : List CommitId) : List (Signed α × Blob) :=
  if heads.isEmpty then []
  else (firstByHead (fun head => decide (head ∈ heads)) (store.load id)).values.map VerifiedMeta.wire

/-- The items of the heads out of a table that is already loaded. -/
def fromLoaded (byId : FinMap CommitId (VerifiedMeta α)) (heads : List CommitId) :
    List (Signed α × Blob) :=
  heads.filterMap fun head => (byId.get? head).map VerifiedMeta.wire

end Store

/-! ### The answer -/

/-- **The diff of a responder**, copied out of its minimal tree. -/
structure ResponderDiff where
  totalItems : Nat
  heads : List CommitId
  localCommitIds : List CommitId
  localFragmentIds : List CommitId
  requestingCommitFingerprints : List Fingerprint
  requestingFragmentFingerprints : List Fingerprint

/-- `ResponderDiff::new`. -/
def ResponderDiff.new [SipHash24] [IterOrder CommitId] (minimal : Sedimentree)
    (theirFingerprints : FingerprintSummary) : ResponderDiff :=
  let diff := minimal.diffRemoteFingerprints theirFingerprints
  { totalItems := minimal.commits.map.values.length + minimal.fragments.map.values.length
    heads := minimal.headsAssumingMinimal
    localCommitIds := diff.localOnlyCommits.map Prod.fst
    localFragmentIds := diff.localOnlyFragments.map Prod.fst
    requestingCommitFingerprints := diff.remoteOnlyCommitFingerprints
    requestingFragmentFingerprints := diff.remoteOnlyFragmentFingerprints }

/-- `SCAN_FRACTION_DENOMINATOR`. -/
def scanFractionDenominator : Nat := 4

/-- `SCAN_CROSSOVER_FLOOR`. -/
def scanCrossoverFloor : Nat := 32

/-- How the items of a resident tree are read. -/
inductive Reading where
  | pointReads
  | bulkScan
deriving DecidableEq

/-- The crossover from point reads to a bulk scan. -/
def ResponderDiff.reading (diff : ResponderDiff) : Reading :=
  if max (diff.totalItems / scanFractionDenominator) scanCrossoverFloor <
      diff.localCommitIds.length + diff.localFragmentIds.length then .bulkScan
  else .pointReads

structure SentItems where
  commits : List (Signed LooseCommit × Blob)
  fragments : List (Signed Fragment × Blob)

/-- The same items are sent, in whatever order. -/
def SentItems.Same (first second : SentItems) : Prop :=
  (∀ item, item ∈ first.commits ↔ item ∈ second.commits) ∧
    ∀ item, item ∈ first.fragments ↔ item ∈ second.fragments

section Answer

variable [Blake3] [Bijou64Codec] [IterOrder CommitId] [IterOrder (Digest LooseCommit)]
  [IterOrder (Digest Fragment)]

section

variable (storage : MemoryStorage) (id : SedimentreeId)

/-- The commits by head, first-loaded-wins. -/
def MemoryStorage.commitById : FinMap CommitId (VerifiedMeta LooseCommit) :=
  firstByHead (fun _ => true) (storage.commits.load id)

/-- The fragments by head, first-loaded-wins. -/
def MemoryStorage.fragmentById : FinMap CommitId (VerifiedMeta Fragment) :=
  firstByHead (fun _ => true) (storage.fragments.load id)

/-- **The tree that is built on a miss**, out of the first item of every head. -/
def MemoryStorage.firstTree : Sedimentree :=
  .new ((storage.fragmentById id).values.map VerifiedMeta.payload)
    ((storage.commitById id).values.map VerifiedMeta.payload)

/-- The items of a resident tree, read as told. -/
def MemoryStorage.read (diff : ResponderDiff) : Reading → SentItems
  | .pointReads => ⟨storage.commits.pointReads id diff.localCommitIds,
      storage.fragments.pointReads id diff.localFragmentIds⟩
  | .bulkScan => ⟨storage.commits.bulkScan id diff.localCommitIds,
      storage.fragments.bulkScan id diff.localFragmentIds⟩

end

variable [SipHash24]

/-- **The answer to a request**, with a way of reading the items of a resident tree: the node
afterwards, the diff and the items. -/
def Node.reply (node : Node) (reading : ResponderDiff → Reading) (depthMetric : DepthMetric)
    (id : SedimentreeId) (theirFingerprints : FingerprintSummary) : Node × ResponderDiff × SentItems :=
  match node.sedimentrees id with
  | some owner =>
    let diff := ResponderDiff.new (owner.minimized depthMetric).2 theirFingerprints
    (node.install id (owner.minimized depthMetric).1, diff, node.storage.read id diff (reading diff))
  | none =>
    let commitById := node.storage.commitById id
    let fragmentById := node.storage.fragmentById id
    if commitById.values.isEmpty && fragmentById.values.isEmpty then
      -- an ephemeral empty tree, nothing is cached
      let diff := ResponderDiff.new ∅ theirFingerprints
      (node, diff, ⟨fromLoaded commitById diff.localCommitIds,
        fromLoaded fragmentById diff.localFragmentIds⟩)
    else
      let built := (node.storage.firstTree id).minimize depthMetric
      let diff := ResponderDiff.new built theirFingerprints
      (node.install id (.alreadyMinimal built), diff, ⟨fromLoaded commitById diff.localCommitIds,
        fromLoaded fragmentById diff.localFragmentIds⟩)

/-- `recv_batch_sync_request`, after the authorization. -/
def Node.recvBatchSyncRequest (node : Node) (depthMetric : DepthMetric) (id : SedimentreeId)
    (theirFingerprints : FingerprintSummary) : Node × ResponderDiff × SentItems :=
  node.reply ResponderDiff.reading depthMetric id theirFingerprints

/-- The resident tree; none counts as the empty one. -/
def Node.residentTree (node : Node) (id : SedimentreeId) : Sedimentree :=
  ((node.sedimentrees id).map MinimizedSedimentree.tree).getD ∅

def Node.hydrated (node : Node) (depthMetric : DepthMetric) (id : SedimentreeId) : Node :=
  ((node.evict id).getOrHydrate depthMetric id).1

/-- **The three ways agree**: with the tree hydrated, by point reads and by a bulk scan, and with the
tree not resident, the same items are sent and the same tree is left. -/
def Node.PathsAgree (node : Node) (depthMetric : DepthMetric) (id : SedimentreeId)
    (theirFingerprints : FingerprintSummary) : Prop :=
  let points :=
    (node.hydrated depthMetric id).reply (fun _ => .pointReads) depthMetric id theirFingerprints
  let scan := (node.hydrated depthMetric id).reply (fun _ => .bulkScan) depthMetric id theirFingerprints
  let miss := (node.evict id).reply ResponderDiff.reading depthMetric id theirFingerprints
  (scan.2.2.Same points.2.2 ∧ miss.2.2.Same points.2.2) ∧
    scan.1.residentTree id = points.1.residentTree id ∧
    miss.1.residentTree id = points.1.residentTree id

end Answer

/-! ### The item of a head -/

section Store

variable {α : Type} [Blake3] [DecodeFields α] [HasBlobMeta α] [Headed α]

/-- **The table of the first items** has for every wanted head what a search in the list finds. -/
theorem get?_firstByHead (wanted : CommitId → Bool) (items : List (VerifiedMeta α)) (head : CommitId) :
    (firstByHead wanted items).get? head =
      if wanted head then items.find? fun verified => decide (Headed.head verified.payload = head)
      else none := by
  suffices general : ∀ (items : List (VerifiedMeta α)) (byId : FinMap CommitId (VerifiedMeta α)),
      (items.foldl (fun byId verified =>
        if wanted (Headed.head verified.payload) then
          byId.orInsert (Headed.head verified.payload) verified
        else byId) byId).get? head =
      (byId.get? head).or (if wanted head then
        items.find? fun verified => decide (Headed.head verified.payload = head) else none) by
    exact general items ∅
  intro items
  induction items with
  | nil =>
    intro byId
    simp
  | cons verified items ih =>
    intro byId
    rw [foldl_cons, ih, List.find?_cons]
    by_cases same : Headed.head verified.payload = head
    · subst same
      by_cases isWanted : wanted (Headed.head verified.payload) = true
      · simp only [if_pos isWanted, FinMap.get?_orInsert, if_pos, decide_true]
        cases byId.get? (Headed.head verified.payload) <;> rfl
      · simp only [if_neg isWanted]
    · rw [decide_eq_false same]
      by_cases isWanted : wanted (Headed.head verified.payload) = true
      · rw [if_pos isWanted, FinMap.get?_orInsert, if_neg (Ne.symm same)]
      · rw [if_neg isWanted]

variable [IterOrder (Digest α)] {store : ItemStore α} {id : SedimentreeId} {heads : List CommitId}
  {item : Signed α × Blob}

/-- What is sent for the heads: the first item of each. -/
def ItemStore.Sends (store : ItemStore α) (id : SedimentreeId) (heads : List CommitId)
    (item : Signed α × Blob) : Prop :=
  ∃ head ∈ heads, ∃ verified, store.loadOne id head = some verified ∧ verified.wire = item

theorem ItemStore.mem_pointReads : item ∈ store.pointReads id heads ↔ store.Sends id heads item := by
  simp only [pointReads, Sends, mem_filterMap, Option.map_eq_some_iff]

theorem ItemStore.mem_fromLoaded :
    item ∈ fromLoaded (firstByHead (fun _ => true) (store.load id)) heads ↔
      store.Sends id heads item := by
  simp only [fromLoaded, Sends, mem_filterMap, Option.map_eq_some_iff, get?_firstByHead,
    if_true, loadOne]

theorem ItemStore.mem_bulkScan [IterOrder CommitId] :
    item ∈ store.bulkScan id heads ↔ store.Sends id heads item := by
  unfold bulkScan Sends
  cases heads with
  | nil => simp
  | cons first rest =>
    rw [if_neg (by simp), mem_map]
    refine ⟨fun ⟨verified, member, isItem⟩ => ?_, fun ⟨head, wanted, verified, found, isItem⟩ => ?_⟩
    · obtain ⟨head, found⟩ := mem_values.mp member
      rw [get?_firstByHead] at found
      split at found
      · rename_i wanted
        exact ⟨head, of_decide_eq_true wanted, verified, found, isItem⟩
      · exact nomatch found
    · refine ⟨verified, mem_values.mpr ⟨head, ?_⟩, isItem⟩
      rw [get?_firstByHead, if_pos (decide_eq_true wanted)]
      exact found

end Store

/-! ### What the three ways do -/

section Paths

variable [Blake3] [Bijou64Codec] [IterOrder CommitId] [IterOrder (Digest LooseCommit)]
  [IterOrder (Digest Fragment)] [SipHash24] {node : Node} {depthMetric : DepthMetric}
  {id : SedimentreeId} {theirFingerprints : FingerprintSummary}

/-- The items that are sent for a diff of a minimal tree. -/
def MemoryStorage.SendsFor (storage : MemoryStorage) (id : SedimentreeId) (minimal : Sedimentree)
    (theirFingerprints : FingerprintSummary) (sent : SentItems) : Prop :=
  let diff := ResponderDiff.new minimal theirFingerprints
  (∀ item, item ∈ sent.commits ↔ storage.commits.Sends id diff.localCommitIds item) ∧
    ∀ item, item ∈ sent.fragments ↔ storage.fragments.Sends id diff.localFragmentIds item

theorem MemoryStorage.SendsFor.same {storage : MemoryStorage} {minimal : Sedimentree}
    {first second : SentItems} (one : storage.SendsFor id minimal theirFingerprints first)
    (two : storage.SendsFor id minimal theirFingerprints second) : first.Same second :=
  ⟨fun item => (one.1 item).trans (two.1 item).symm, fun item => (one.2 item).trans (two.2 item).symm⟩

theorem MemoryStorage.read_sends (storage : MemoryStorage) (minimal : Sedimentree) (reading : Reading) :
    storage.SendsFor id minimal theirFingerprints
      (storage.read id (.new minimal theirFingerprints) reading) := by
  cases reading with
  | pointReads => exact ⟨fun item => mem_pointReads, fun item => mem_pointReads⟩
  | bulkScan => exact ⟨fun item => mem_bulkScan, fun item => mem_bulkScan⟩

theorem MemoryStorage.firstTree_of_isEmpty {storage : MemoryStorage}
    (empty : ((storage.commitById id).values.isEmpty && (storage.fragmentById id).values.isEmpty) = true) :
    storage.firstTree id = ∅ := by
  rw [Bool.and_eq_true, List.isEmpty_iff, List.isEmpty_iff] at empty
  rw [firstTree, empty.1, empty.2]
  rfl

@[simp] theorem Node.residentTree_install (owner : MinimizedSedimentree) :
    (node.install id owner).residentTree id = owner.tree := by
  simp [residentTree, install]

/-- **On a miss** the items are sent, and the tree is left, for the first items of the storage. -/
theorem Node.reply_of_miss (node : Node) (depthMetric : DepthMetric)
    (theirFingerprints : FingerprintSummary) (reading : ResponderDiff → Reading)
    (miss : node.sedimentrees id = none) :
    let answer := node.reply reading depthMetric id theirFingerprints
    answer.1.residentTree id = (node.storage.firstTree id).minimize depthMetric ∧
      node.storage.SendsFor id ((node.storage.firstTree id).minimize depthMetric) theirFingerprints
        answer.2.2 := by
  unfold Node.reply
  simp only [miss]
  split
  · rename_i empty
    rw [MemoryStorage.firstTree_of_isEmpty empty, minimize_eq_minimizeInPlace,
      minimizeInPlace_empty]
    refine ⟨?_, fun item => mem_fromLoaded, fun item => mem_fromLoaded⟩
    rw [Node.residentTree, miss]
    rfl
  · refine ⟨?_, fun item => mem_fromLoaded, fun item => mem_fromLoaded⟩
    rw [Node.residentTree_install]
    rfl

/-- **With a clean resident tree** the items are sent for it, and it is left as it is. -/
theorem Node.reply_of_resident (reading : ResponderDiff → Reading) {tree : Sedimentree}
    (resident : node.sedimentrees id = some (.alreadyMinimal tree)) :
    let answer := node.reply reading depthMetric id theirFingerprints
    answer.1.residentTree id = tree ∧
      node.storage.SendsFor id tree theirFingerprints answer.2.2 := by
  unfold Node.reply
  simp only [resident]
  refine ⟨?_, node.storage.read_sends tree _⟩
  rw [Node.residentTree_install]
  rfl

theorem MemoryStorage.trees_of_isEmpty {storage : MemoryStorage}
    (empty : ((storage.loadLooseCommitMetas id).isEmpty && (storage.loadFragmentMetas id).isEmpty) = true) :
    storage.storedTree id = ∅ ∧ storage.firstTree id = ∅ := by
  rw [Bool.and_eq_true, List.isEmpty_iff, List.isEmpty_iff] at empty
  have noCommits : storage.commits.load id = [] := List.map_eq_nil_iff.mp empty.1
  have noFragments : storage.fragments.load id = [] := List.map_eq_nil_iff.mp empty.2
  refine ⟨by rw [storedTree, empty.1, empty.2]; rfl, firstTree_of_isEmpty ?_⟩
  have noneFirst : ∀ {β : Type} [DecodeFields β] [HasBlobMeta β],
      (∅ : FinMap CommitId (VerifiedMeta β)).values = [] := by
    intro β _ _
    refine List.eq_nil_iff_forall_not_mem.mpr fun verified member => ?_
    obtain ⟨head, found⟩ := mem_values.mp member
    exact nomatch found
  rw [fragmentById, commitById, noCommits, noFragments, Bool.and_eq_true, List.isEmpty_iff,
    List.isEmpty_iff]
  exact ⟨noneFirst, noneFirst⟩

/-- **With the tree hydrated** the items are sent, and the tree is left, for the stored tree. -/
theorem Node.reply_of_hydrated (node : Node) (depthMetric : DepthMetric) (id : SedimentreeId)
    (theirFingerprints : FingerprintSummary) (reading : ResponderDiff → Reading) :
    let answer := (node.hydrated depthMetric id).reply reading depthMetric id theirFingerprints
    answer.1.residentTree id = (node.storage.storedTree id).minimize depthMetric ∧
      node.storage.SendsFor id ((node.storage.storedTree id).minimize depthMetric) theirFingerprints
        answer.2.2 := by
  have miss : (node.evict id).sedimentrees id = none := Function.update_self _ _ _
  unfold Node.hydrated Node.getOrHydrate
  simp only [miss]
  split
  · rename_i empty
    obtain ⟨noStored, noFirst⟩ := MemoryStorage.trees_of_isEmpty empty
    change node.storage.storedTree id = ∅ at noStored
    change node.storage.firstTree id = ∅ at noFirst
    split
    · rw [noStored, minimize_eq_minimizeInPlace, minimizeInPlace_empty]
      exact Node.reply_of_resident reading (Function.update_self _ _ _)
    · have answer := (node.evict id).reply_of_miss depthMetric theirFingerprints reading miss
      change _ = (node.storage.firstTree id).minimize depthMetric ∧
        node.storage.SendsFor id ((node.storage.firstTree id).minimize depthMetric) _ _ at answer
      rw [noStored]
      rwa [noFirst] at answer
  · exact Node.reply_of_resident reading (Function.update_self _ _ _)

theorem Node.pathsAgree_iff : node.PathsAgree depthMetric id theirFingerprints ↔
      (node.storage.firstTree id).minimize depthMetric =
        (node.storage.storedTree id).minimize depthMetric := by
  obtain ⟨pointsTree, pointsSent⟩ := node.reply_of_hydrated depthMetric id theirFingerprints
    fun _ => .pointReads
  obtain ⟨scanTree, scanSent⟩ := node.reply_of_hydrated depthMetric id theirFingerprints
    fun _ => .bulkScan
  obtain ⟨missTree, missSent⟩ := (node.evict id).reply_of_miss depthMetric
    theirFingerprints ResponderDiff.reading (Function.update_self _ _ _)
  change _ = (node.storage.firstTree id).minimize depthMetric at missTree
  change node.storage.SendsFor id ((node.storage.firstTree id).minimize depthMetric) _ _ at missSent
  unfold Node.PathsAgree
  refine ⟨fun agree => missTree.symm.trans (agree.2.2.trans pointsTree), fun same => ?_⟩
  rw [same] at missTree missSent
  exact ⟨⟨scanSent.same pointsSent, missSent.same pointsSent⟩, scanTree.trans pointsTree.symm,
    missTree.trans pointsTree.symm⟩

end Paths

/-! ### First and least -/

section First

variable {α : Type} [Blake3] [DecodeFields α] [HasBlobMeta α] [Headed α] [IterOrder (Digest α)]
  {store : ItemStore α} {id : SedimentreeId}

/-- **The first item of every head is the one of least digest.** -/
def ItemStore.FirstIsLeast (store : ItemStore α) (id : SedimentreeId) : Prop :=
  ∀ head first, store.loadOne id head = some first → ∀ verified ∈ store.load id,
    Headed.head verified.payload = head → Digest.hash first.payload ≤ Digest.hash verified.payload

theorem ItemStore.mem_load {verified : VerifiedMeta α} (member : verified ∈ store.load id) :
    (store.items id).get? (Digest.hash verified.payload) = some verified := by
  obtain ⟨digest, stored⟩ := mem_values.mp member
  rw [store.digest_eq stored]
  exact stored

theorem ItemStore.loadOne_eq_some {head : CommitId} {first : VerifiedMeta α}
    (found : store.loadOne id head = some first) :
    first ∈ store.load id ∧ Headed.head first.payload = head := by
  unfold loadOne at found
  have isHead := List.find?_some found
  exact ⟨mem_of_find?_eq_some found, of_decide_eq_true isHead⟩

theorem ItemStore.mem_firstPayloads [IterOrder CommitId] {payload : α} :
    payload ∈ (firstByHead (fun _ => true) (store.load id)).values.map VerifiedMeta.payload ↔
      ∃ first, store.loadOne id (Headed.head payload) = some first ∧ first.payload = payload := by
  rw [mem_map]
  refine ⟨fun ⟨first, member, isPayload⟩ => ?_, fun ⟨first, found, isPayload⟩ => ?_⟩
  · obtain ⟨key, found⟩ := mem_values.mp member
    rw [get?_firstByHead, if_pos rfl] at found
    have isHead := (loadOne_eq_some found).2
    rw [isPayload] at isHead
    exact ⟨first, isHead ▸ found, isPayload⟩
  · refine ⟨first, mem_values.mpr ⟨Headed.head payload, ?_⟩, isPayload⟩
    rw [get?_firstByHead, if_pos rfl]
    exact found

theorem ItemStore.single_firstPayloads [IterOrder CommitId] (store : ItemStore α) (id : SedimentreeId) :
    Single ((firstByHead (fun _ => true) (store.load id)).values.map VerifiedMeta.payload) := by
  intro one isOne two isTwo sameHead
  obtain ⟨first, found, rfl⟩ := mem_firstPayloads.mp isOne
  obtain ⟨second, foundSecond, rfl⟩ := mem_firstPayloads.mp isTwo
  rw [sameHead, found] at foundSecond
  rw [Option.some.inj foundSecond]

theorem ItemStore.get?_firstShelf [IterOrder CommitId] (store : ItemStore α) (id : SedimentreeId)
    (head : CommitId) :
    (Shelf.ofList ((firstByHead (fun _ => true) (store.load id)).values.map
      VerifiedMeta.payload)).map.get? head = (store.loadOne id head).map VerifiedMeta.payload := by
  refine Option.ext fun payload => ?_
  rw [(store.single_firstPayloads id).get?_ofList fun _ => Iff.rfl, mem_firstPayloads,
    Option.map_eq_some_iff]
  refine ⟨fun ⟨⟨first, found, isPayload⟩, isHead⟩ => ⟨first, isHead ▸ found, isPayload⟩,
    fun ⟨first, found, isPayload⟩ => ?_⟩
  have isHead := (loadOne_eq_some found).2
  rw [isPayload] at isHead
  exact ⟨⟨first, isHead.symm ▸ found, isPayload⟩, isHead⟩

theorem ItemStore.mem_firstPerHead [IterOrder CommitId] {payload : α} :
    payload ∈ Content.firstPerHead (store.metas id) ↔
      payload ∈ (firstByHead (fun _ => true) (store.load id)).values.map VerifiedMeta.payload := by
  suffices general : ∀ (items : List (VerifiedMeta α)) (payloads : FinMap CommitId α)
      (byId : FinMap CommitId (VerifiedMeta α)),
      (∀ head, payloads.get? head = (byId.get? head).map VerifiedMeta.payload) → ∀ head,
      ((items.map VerifiedMeta.payload).foldl
          (fun byId payload => byId.orInsert (Headed.head payload) payload) payloads).get? head =
        ((items.foldl (fun byId verified =>
          if (fun _ : CommitId => true) (Headed.head verified.payload) then
            byId.orInsert (Headed.head verified.payload) verified
          else byId) byId).get? head).map VerifiedMeta.payload by
    have same := general (store.load id) ∅ ∅ fun _ => rfl
    unfold Content.firstPerHead
    rw [mem_values, mem_map]
    refine ⟨fun ⟨head, found⟩ => ?_, fun ⟨verified, member, isPayload⟩ => ?_⟩
    · obtain ⟨verified, stored, isPayload⟩ := Option.map_eq_some_iff.mp ((same head).symm.trans found)
      exact ⟨verified, mem_values.mpr ⟨head, stored⟩, isPayload⟩
    · obtain ⟨head, stored⟩ := mem_values.mp member
      exact ⟨head, (same head).trans (Option.map_eq_some_iff.mpr ⟨verified, stored, isPayload⟩)⟩
  intro items
  induction items with
  | nil => exact fun payloads byId same => same
  | cons verified items ih =>
    intro payloads byId same
    refine ih _ _ fun head => ?_
    show (payloads.orInsert (Headed.head verified.payload) verified.payload).get? head =
      ((byId.orInsert (Headed.head verified.payload) verified).get? head).map VerifiedMeta.payload
    rw [FinMap.get?_orInsert, FinMap.get?_orInsert, same, same]
    by_cases isHead : head = Headed.head verified.payload
    · rw [if_pos isHead, if_pos isHead]
      cases byId.get? (Headed.head verified.payload) <;> rfl
    · rw [if_neg isHead, if_neg isHead]

/-- **The shelf of the first items is the shelf of all** exactly when the first item of every head is
the one of least digest. -/
theorem ItemStore.firstShelf_eq_iff [IterOrder CommitId] :
    Shelf.ofList ((firstByHead (fun _ => true) (store.load id)).values.map VerifiedMeta.payload) =
      Shelf.ofList (store.metas id) ↔ store.FirstIsLeast id := by
  have holds := Shelf.holds_ofList (store.metas id)
  refine ⟨fun same head first found verified member isHead => ?_, fun least => Shelf.ext fun head => ?_⟩
  · have here := holds head
    rw [← same, store.get?_firstShelf id head, found] at here
    exact here.least verified.payload ⟨mem_map_of_mem member, isHead⟩
  · rw [store.get?_firstShelf id head]
    refine FinMap.Holds.unique ?_ ?_ (holds head)
    · -- items of one document are stored under their digests
      intro one isOne two isTwo sameDigest
      obtain ⟨first, memberOne, rfl⟩ := mem_map.mp isOne.1
      obtain ⟨second, memberTwo, rfl⟩ := mem_map.mp isTwo.1
      have stored := mem_load memberOne
      rw [sameDigest, mem_load memberTwo] at stored
      rw [Option.some.inj stored]
    · cases found : store.loadOne id head with
      | none =>
        intro payload candidate
        obtain ⟨verified, member, rfl⟩ := mem_map.mp candidate.1
        exact (List.find?_eq_none.mp found) verified member (decide_eq_true candidate.2)
      | some first =>
        obtain ⟨member, isHead⟩ := loadOne_eq_some found
        refine ⟨⟨mem_map_of_mem member, isHead⟩, fun payload candidate => ?_⟩
        obtain ⟨verified, listed, rfl⟩ := mem_map.mp candidate.1
        exact least head first found verified listed candidate.2

end First

section Agreement

variable [Blake3] [Bijou64Codec] [IterOrder CommitId] [IterOrder (Digest LooseCommit)]
  [IterOrder (Digest Fragment)] [SipHash24]

theorem MemoryStorage.firstTree_eq (storage : MemoryStorage) (id : SedimentreeId) :
    storage.firstTree id = (storage.content id).dedupe.tree :=
  congrArg₂ Sedimentree.mk
    ((storage.fragments.single_firstPayloads id).ofList_congr fun _ => mem_firstPerHead.symm)
    ((storage.commits.single_firstPayloads id).ofList_congr fun _ => mem_firstPerHead.symm)

end Agreement

/-! ### Two payloads for one head -/

/-- A fragment of document `1` with the head `6` that has the commit `5` as a checkpoint. -/
def wideFragment [Blake3] : Fragment := Fragment.new ⟨1⟩ ⟨6⟩ ∅ {⟨5⟩} (BlobMeta.new ⟨[2]⟩)

/-- Another one with the same head and no checkpoint. -/
def narrowFragment [Blake3] : Fragment := Fragment.new ⟨1⟩ ⟨6⟩ ∅ ∅ (BlobMeta.new ⟨[3]⟩)

/-- A node with a commit and both fragments stored. -/
def doubledNode : letI := lastBytes
    letI := eightBytes
    Node :=
  letI := lastBytes
  letI := eightBytes
  ⟨((MemoryStorage.new.saveLooseCommit ⟨1⟩ verifiedOfOne).saveFragment ⟨1⟩
      ⟨⟨.sealPayload (signerOf 1) wideFragment, wideFragment, by decide +kernel⟩, ⟨[2]⟩, rfl⟩).saveFragment
        ⟨1⟩ ⟨⟨.sealPayload (signerOf 1) narrowFragment, narrowFragment, by decide +kernel⟩, ⟨[3]⟩, rfl⟩,
    fun _ => none⟩

end Subduction
