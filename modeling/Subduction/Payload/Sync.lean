/-
**A round of reconciliation between honest peers loses nothing.**

Two peers hold ancestor-closed parts of one commit graph, each as the complete tree of its part,
possibly minimized. After one round and minimization both hold every commit of both parts.

* **`Replica.syncRound_fst`**, **`Replica.syncRound_snd`** — after the round each peer is a replica of
  both parts.
* **`sync_round_converges`**.
-/

import Subduction.Core.Reconcile
import Subduction.Payload.Complete

set_option linter.unusedSectionVars false

namespace Subduction

open Relation Strata Sedimentree List

section Reconciliation

variable {Node : Type} [Parents Node] [IterOrder CommitId] [Blake3] [Bijou64] [SipHash24]

/-! ### Replicas -/

/-- **A replica of a part**: an honest tree that holds the part and nothing else. -/
structure Replica (graph : CommitGraph Node) (metric : DepthMetric) (part : Finset CommitId)
    (tree : Sedimentree) : Prop where
  honest : Honest graph metric tree
  commits : ∀ id ∈ tree.commitKeys, id ∈ part
  fragments : ∀ id ∈ tree.fragmentKeys, id ∈ part
  holds : ∀ c ∈ part, HoldsPayload graph metric tree c

variable {graph : CommitGraph Node} {metric : DepthMetric} {part otherPart : Finset CommitId}
  {tree other : Sedimentree} {seed : FingerprintSeed}

variable {known : FinMap CommitId (FragmentState Node)} {fragments : List Fragment}
  {commits : List LooseCommit}

theorem IsBuild.replica
    (build : IsBuild graph part metric known) (closed : graph.AncestorClosed part)
    (sedimentreeId : SedimentreeId) (commitMeta fragmentMeta : CommitId → BlobMeta) :
    Replica graph metric part (graph.tree part known sedimentreeId commitMeta fragmentMeta) where
  honest := build.honest sedimentreeId commitMeta fragmentMeta closed
  commits _ member := (CommitGraph.mem_commitKeys_tree _ _ _ closed.1).mp member
  fragments _ member := (build.mem _ ((build.mem_fragmentKeys_tree _ _ _).mp member)).1
  holds _ member := Or.inl ((CommitGraph.mem_commitKeys_tree _ _ _ closed.1).mpr member)

theorem Replica.minimize (replica : Replica graph metric part tree)
    (separated : Set.InjOn Checkpoint.new (graph.ids : Set CommitId)) :
    Replica graph metric part (tree.minimize metric) := by
  rw [minimize_eq_minimizeInPlace]
  refine ⟨replica.honest.minimize separated, fun id member => ?_, fun id member => ?_,
    fun c member => replica.honest.holds_minimize separated (replica.holds c member)⟩
  · obtain ⟨commit, stored⟩ := mem_commitKeys.mp member
    exact replica.commits id (mem_commitKeys.mpr
      ⟨commit, (Sedimentree.commit?_minimizeInPlace.mp stored).1⟩)
  · exact replica.fragments id (fragmentKeys_minimizeInPlace_subset tree metric member)

theorem CommitGraph.AncestorClosed.reach (closed : graph.AncestorClosed part) {a b : CommitId}
    (member : a ∈ part) (path : ReflTransGen graph.edge a b) : b ∈ part := by
  induction path with
  | refl => exact member
  | tail _ step ih => exact closed.2 _ ih _ step

theorem Replica.advertised (replica : Replica graph metric part tree)
    (closed : graph.AncestorClosed part) {id : CommitId} (known : tree.Advertised id) : id ∈ part := by
  rcases known with loose | isHead | ⟨h, fragment, stored, inBoundary⟩
  · exact replica.commits id loose
  · exact replica.fragments id isHead
  · have rim := ((replica.honest.stratum stored).boundary id).mp inBoundary
    have inPart := replica.fragments h (mem_fragmentKeys.mpr ⟨fragment, stored⟩)
    exact closed.reach inPart rim.path.to_reflTransGen

/-! ### Ingesting what an honest peer sends -/

/-- **Ingesting the items of an honest tree**, all the fragments that were missing among them. -/
theorem Honest.ingest (honest : Honest graph metric tree) (honestOther : Honest graph metric other)
    (sentFragments : ∀ f ∈ fragments, other.fragment? f.head = some f)
    (sentCommits : ∀ c ∈ commits, other.commit? c.head = some c)
    (complete : ∀ id, id ∈ (tree.ingest fragments commits).fragmentKeys ↔
      id ∈ tree.fragmentKeys ∨ id ∈ other.fragmentKeys) :
    Honest graph metric (tree.ingest fragments commits) where
  mem {id} member := by
    rcases mem_commitKeys_ingest.mp member with old | ⟨commit, listed, isHead⟩
    · exact honest.mem old
    · rw [← isHead]
      exact honestOther.mem (mem_commitKeys.mpr ⟨commit, sentCommits commit listed⟩)
  parents {id commit} stored := by
    have isHead := head_of_commit? stored
    rcases Sedimentree.commit?_ingest stored with old | listed
    · exact honest.parents old
    · exact honestOther.parents (isHead ▸ sentCommits commit listed)
  stratum {id fragment} stored := by
    have isHead := head_of_fragment? stored
    rcases Sedimentree.fragment?_ingest stored with old | listed
    · exact honest.stratum old
    · exact honestOther.stratum (isHead ▸ sentFragments fragment listed)
  closed := by
    have same : (· ∈ (tree.ingest fragments commits).fragmentKeys) =
        fun id => id ∈ tree.fragmentKeys ∨ id ∈ other.fragmentKeys :=
      funext fun id => propext (complete id)
    rw [same]
    exact honest.closed.union honestOther.closed

theorem holds_ingest {c : CommitId} (holds : HoldsPayload graph metric tree c) :
    HoldsPayload graph metric (tree.ingest fragments commits) c := by
  rcases holds with loose | ⟨h, isHead, owns⟩
  · exact Or.inl (mem_commitKeys_ingest.mpr (Or.inl loose))
  · exact Or.inr ⟨h, mem_fragmentKeys_ingest.mpr (Or.inl isHead), owns⟩

/-- **A replica that ingests what it lacks of another** is one of both parts. -/
theorem Replica.ingest (receiver : Replica graph metric part tree)
    (sender : Replica graph metric otherPart other)
    (sentFragments : ∀ f ∈ fragments, other.fragment? f.head = some f)
    (sentCommits : ∀ c ∈ commits, other.commit? c.head = some c)
    (allFragments : ∀ id fragment, other.fragment? id = some fragment → id ∉ tree.fragmentKeys →
      fragment ∈ fragments)
    (allCommits : ∀ id commit, other.commit? id = some commit → id ∉ part → commit ∈ commits) :
    Replica graph metric (part ∪ otherPart) (tree.ingest fragments commits) := by
  have complete : ∀ id, id ∈ (tree.ingest fragments commits).fragmentKeys ↔
      id ∈ tree.fragmentKeys ∨ id ∈ other.fragmentKeys := by
    intro id
    refine mem_fragmentKeys_ingest.trans ⟨fun either => ?_, fun either => ?_⟩
    · refine either.imp_right fun ⟨f, listed, isHead⟩ => ?_
      exact mem_fragmentKeys.mpr ⟨f, isHead ▸ sentFragments f listed⟩
    · by_cases present : id ∈ tree.fragmentKeys
      · exact Or.inl present
      · obtain ⟨f, stored⟩ := mem_fragmentKeys.mp (either.resolve_left present)
        exact Or.inr ⟨f, allFragments id f stored present, head_of_fragment? stored⟩
  refine ⟨receiver.honest.ingest sender.honest sentFragments sentCommits complete,
    fun id member => ?_, fun id member => ?_, fun c member => ?_⟩
  · rw [Finset.mem_union]
    rcases mem_commitKeys_ingest.mp member with old | ⟨commit, listed, rfl⟩
    · exact Or.inl (receiver.commits id old)
    · exact Or.inr (sender.commits _ (mem_commitKeys.mpr ⟨commit, sentCommits _ listed⟩))
  · rw [Finset.mem_union]
    exact ((complete id).mp member).imp (receiver.fragments id) (sender.fragments id)
  · by_cases inPart : c ∈ part
    · exact holds_ingest (receiver.holds c inPart)
    · rcases sender.holds c ((Finset.mem_union.mp member).resolve_left inPart) with
        loose | ⟨h, isHead, owns⟩
      · obtain ⟨commit, stored⟩ := mem_commitKeys.mp loose
        exact Or.inl (mem_commitKeys_ingest.mpr (Or.inr
          ⟨commit, allCommits c commit stored inPart, head_of_commit? stored⟩))
      · exact Or.inr ⟨h, (complete h).mpr (Or.inr isHead), owns⟩

/-! ### What is sent -/

section Sent

variable {remote : FingerprintSummary}

theorem fragment?_of_localOnly {f : Fragment}
    (listed : f ∈ (other.diffRemoteFingerprints remote).localOnlyFragments.map Prod.snd) :
    other.fragment? f.head = some f := by
  obtain ⟨⟨id, f⟩, sent, rfl⟩ := mem_map.mp listed
  obtain ⟨stored, -⟩ := mem_localOnlyFragments.mp sent
  rw [head_of_fragment? stored]
  exact stored

theorem commit?_of_localOnly {c : LooseCommit}
    (listed : c ∈ (other.diffRemoteFingerprints remote).localOnlyCommits.map Prod.snd) :
    other.commit? c.head = some c := by
  obtain ⟨⟨id, c⟩, sent, rfl⟩ := mem_map.mp listed
  obtain ⟨stored, -⟩ := mem_localOnlyCommits.mp sent
  rw [head_of_commit? stored]
  exact stored

variable {echoed : List Fingerprint} {resolve : Fingerprint → Option CommitId}

theorem fragment?_of_resolved
    {f : Fragment} (listed : f ∈ echoed.filterMap fun fp => (resolve fp).bind tree.fragment?) :
    tree.fragment? f.head = some f := by
  obtain ⟨fp, -, resolved⟩ := mem_filterMap.mp listed
  obtain ⟨id, -, stored⟩ := Option.bind_eq_some_iff.mp resolved
  rw [head_of_fragment? stored]
  exact stored

theorem commit?_of_resolved
    {c : LooseCommit} (listed : c ∈ echoed.filterMap fun fp => (resolve fp).bind tree.commit?) :
    tree.commit? c.head = some c := by
  obtain ⟨fp, -, resolved⟩ := mem_filterMap.mp listed
  obtain ⟨id, -, stored⟩ := Option.bind_eq_some_iff.mp resolved
  rw [head_of_commit? stored]
  exact stored

end Sent

/-! ### The two sides of a round -/

section Round

variable (requestor : Replica graph metric part tree) (responder : Replica graph metric otherPart other)
  (closed : graph.AncestorClosed part) (closedOther : graph.AncestorClosed otherPart)
  (separated : Set.InjOn (Fingerprint.new seed) (graph.ids : Set CommitId))

theorem summary_commitFingerprints {fp : Fingerprint} :
    fp ∈ (tree.fingerprintResolver seed).summary.commitFingerprints ↔
      ∃ id, tree.Advertised id ∧ Fingerprint.new seed id = fp := by
  rw [fingerprintResolver_summary]
  exact mem_advertised

theorem summary_fragmentFingerprints {fp : Fingerprint} :
    fp ∈ (tree.fingerprintResolver seed).summary.fragmentFingerprints ↔
      ∃ id ∈ tree.fragmentKeys, Fingerprint.new seed id = fp := by
  rw [fingerprintResolver_summary]
  exact mem_fragmentFingerprints

include requestor responder closed closedOther separated

theorem Replica.not_sent_mem {c : CommitId} {commit : LooseCommit}
    (stored : other.commit? c = some commit)
    (notSent : (c, commit) ∉ (other.diffRemoteFingerprints
      (tree.fingerprintResolver seed).summary).localOnlyCommits) : c ∈ part := by
  have inOther : c ∈ graph.ids := responder.honest.mem (mem_commitKeys.mpr ⟨commit, stored⟩)
  rw [mem_localOnlyCommits] at notSent
  by_cases advertised : Fingerprint.new seed c ∈
      (tree.fingerprintResolver seed).summary.commitFingerprints
  · obtain ⟨id, known, same⟩ := summary_commitFingerprints.mp advertised
    have inPart := requestor.advertised closed known
    rw [← separated (closed.1 inPart) inOther same]
    exact inPart
  · have covered : c ∈ other.coveredByRemote (tree.fingerprintResolver seed).summary := by
      by_contra clear
      exact notSent ⟨stored, advertised, clear⟩
    obtain ⟨root, isRoot, path⟩ := mem_coveredByRemote.mp covered
    obtain ⟨isLocal, isRemote⟩ := mem_fragmentRoots.mp isRoot
    obtain ⟨id, isHead, same⟩ := summary_fragmentFingerprints.mp isRemote
    have inPart := requestor.fragments id isHead
    have rootOther : root ∈ otherPart := by
      rcases isLocal with loose | isFragment
      · exact responder.commits root loose
      · exact responder.fragments root isFragment
    rw [separated (closed.1 inPart) (closedOther.1 rootOther) same] at inPart
    refine closed.reach inPart (ReflTransGen.mono ?_ _ _ path)
    intro a b step
    obtain ⟨commit, stored, isParent⟩ := step.2
    exact (responder.honest.parents stored b).mp isParent

theorem Replica.syncRound_fst :
    Replica graph metric (part ∪ otherPart) (Sedimentree.syncRound tree other seed).1 := by
  refine requestor.ingest responder (fun f => fragment?_of_localOnly) (fun c => commit?_of_localOnly)
    (fun id f stored absent => ?_) (fun c commit stored outside => ?_)
  · apply mem_map_of_mem (f := Prod.snd) (a := (id, f))
    refine mem_localOnlyFragments.mpr ⟨stored, fun known => absent ?_⟩
    have isHead := mem_fragmentKeys.mpr ⟨f, stored⟩
    obtain ⟨key, isKey, same⟩ := summary_fragmentFingerprints.mp known
    rw [← separated (closed.1 (requestor.fragments key isKey))
      (closedOther.1 (responder.fragments id isHead)) same]
    exact isKey
  · apply mem_map_of_mem (f := Prod.snd) (a := (c, commit))
    by_contra notSent
    exact outside (requestor.not_sent_mem responder closed closedOther separated stored notSent)

theorem Replica.syncRound_snd :
    Replica graph metric (part ∪ otherPart) (Sedimentree.syncRound tree other seed).2 := by
  let resolver := tree.fingerprintResolver seed
  rw [Finset.union_comm]
  refine responder.ingest requestor (fun f => fragment?_of_resolved) (fun c => commit?_of_resolved)
    (fun id f stored absent => ?_) (fun c commit stored outside => ?_)
  · have isHead := mem_fragmentKeys.mpr ⟨f, stored⟩
    have resolves : resolver.resolveFragment (Fingerprint.new seed id) = some id :=
      fingerprintTable_resolve (separated.mono fun key listed =>
        closed.1 (requestor.fragments key (IterOrder.mem_list.mp listed)))
        (IterOrder.mem_list.mpr isHead)
    refine mem_filterMap.mpr ⟨Fingerprint.new seed id, ?_, ?_⟩
    · refine mem_remoteOnlyFragmentFingerprints.mpr
        ⟨summary_fragmentFingerprints.mpr ⟨id, isHead, rfl⟩, fun ⟨key, isKey, same⟩ => absent ?_⟩
      rw [← separated (closedOther.1 (responder.fragments key isKey))
        (closed.1 (requestor.fragments id isHead)) same]
      exact isKey
    · rw [resolves, Option.bind_some, stored]
  · have loose := mem_commitKeys.mpr ⟨commit, stored⟩
    have resolves : resolver.resolveCommit (Fingerprint.new seed c) = some c :=
      fingerprintTable_resolve (separated.mono fun id listed =>
        requestor.honest.mem (mem_commit_heads.mp listed))
        (mem_commit_heads.mpr loose)
    refine mem_filterMap.mpr ⟨Fingerprint.new seed c, ?_, ?_⟩
    · refine mem_remoteOnlyCommitFingerprints.mpr
        ⟨summary_commitFingerprints.mpr ⟨c, Or.inl loose, rfl⟩, fun ⟨id, known, same⟩ => outside ?_⟩
      have inOther := responder.advertised closedOther known
      rw [← separated (closedOther.1 inOther) (closed.1 (requestor.commits c loose)) same]
      exact inOther
    · rw [resolves, Option.bind_some, stored]

end Round

/-! ### Complete trees -/

theorem fragment?_syncRound {id : CommitId} {fragment : Fragment}
    (stored : (Sedimentree.syncRound tree other seed).1.fragment? id = some fragment ∨
      (Sedimentree.syncRound tree other seed).2.fragment? id = some fragment) :
    tree.fragment? id = some fragment ∨ other.fragment? id = some fragment := by
  rcases stored with stored | stored
  · have isHead := head_of_fragment? stored
    refine (Sedimentree.fragment?_ingest stored).imp_right fun listed => ?_
    exact isHead ▸ fragment?_of_localOnly listed
  · have isHead := head_of_fragment? stored
    refine (Sedimentree.fragment?_ingest stored).symm.imp_left fun listed => ?_
    exact isHead ▸ fragment?_of_resolved listed

/-- The fragment is the one of a state of the build. -/
def FromState (known : FinMap CommitId (FragmentState Node)) (sedimentreeId : SedimentreeId)
    (fragmentMeta : CommitId → BlobMeta) (head : CommitId) (fragment : Fragment)
    (state : FragmentState Node) : Prop :=
  known.get? head = some state ∧ fragment = state.toFragment sedimentreeId (fragmentMeta head)

/-- The complete tree of a part, minimized or not. -/
def replicaTree (graph : CommitGraph Node) (part : Finset CommitId)
    (known : FinMap CommitId (FragmentState Node)) (sedimentreeId : SedimentreeId)
    (commitMeta fragmentMeta : CommitId → BlobMeta) (metric : DepthMetric) (minimized : Bool) :
    Sedimentree :=
  let tree := graph.tree part known sedimentreeId commitMeta fragmentMeta
  if minimized then tree.minimize metric else tree

theorem IsBuild.replicaTree
    (build : IsBuild graph part metric known) (closed : graph.AncestorClosed part)
    (separated : Set.InjOn Checkpoint.new (graph.ids : Set CommitId))
    (sedimentreeId : SedimentreeId) (commitMeta fragmentMeta : CommitId → BlobMeta)
    (minimized : Bool) : Replica graph metric part
      (replicaTree graph part known sedimentreeId commitMeta fragmentMeta metric minimized) := by
  have replica := build.replica closed sedimentreeId commitMeta fragmentMeta
  cases minimized with
  | false => exact replica
  | true => exact replica.minimize separated

theorem IsBuild.fromState (build : IsBuild graph part metric known) {sedimentreeId : SedimentreeId}
    {commitMeta fragmentMeta : CommitId → BlobMeta} {minimized : Bool} {head : CommitId}
    {fragment : Fragment} (stored : (Subduction.replicaTree graph part known sedimentreeId commitMeta
      fragmentMeta metric minimized).fragment? head = some fragment) :
    ∃ state, FromState known sedimentreeId fragmentMeta head fragment state := by
  have inTree : (graph.tree part known sedimentreeId commitMeta fragmentMeta).fragment? head =
      some fragment := by
    cases minimized with
    | false => exact stored
    | true =>
      unfold Subduction.replicaTree at stored
      dsimp only at stored
      rw [if_pos rfl, minimize_eq_minimizeInPlace] at stored
      exact (Sedimentree.fragment?_minimizeInPlace.mp stored).1
  have isHead := head_of_fragment? inTree
  have listed := (Shelf.holds_ofList (CommitGraph.stateFragments known sedimentreeId
    fragmentMeta)).candidate inTree
  obtain ⟨key, state, found, rfl⟩ := CommitGraph.mem_stateFragments.mp listed
  have headId := (build.canonical key state found).headId
  have sameKey : key = head := headId.symm.trans isHead
  rw [headId, sameKey]
  exact ⟨state, sameKey ▸ found, rfl⟩

/-- **A round between two complete trees converges.** For every commit graph, all ancestor-closed
parts `A` and `B` of it, every depth metric and all lists of heads, with the trees of both parts
minimized or not: after one round and minimization each peer holds every commit of `A` and `B`,
loose or as a member of the state that a fragment it keeps came from. -/
theorem sync_round_converges (graph : CommitGraph Node) (A B : Finset CommitId)
    (closedA : graph.AncestorClosed A) (closedB : graph.AncestorClosed B) (metric : DepthMetric)
    (headsA headsB : List CommitId)
    (checkpoints : Set.InjOn Checkpoint.new (graph.ids : Set CommitId)) (seed : FingerprintSeed)
    (fingerprints : Set.InjOn (Fingerprint.new seed) (graph.ids : Set CommitId))
    (sedimentreeId : SedimentreeId)
    (commitMetaA fragmentMetaA commitMetaB fragmentMetaB : CommitId → BlobMeta)
    (minimizedA minimizedB : Bool) :
    ∃ knownA freshA knownB freshB,
      (graph.store A).buildFragmentStore headsA ∅ metric = (knownA, .ok freshA) ∧
      (graph.store B).buildFragmentStore headsB ∅ metric = (knownB, .ok freshB) ∧
      let round := Sedimentree.syncRound
        (replicaTree graph A knownA sedimentreeId commitMetaA fragmentMetaA metric minimizedA)
        (replicaTree graph B knownB sedimentreeId commitMetaB fragmentMetaB metric minimizedB) seed
      ∀ peer ∈ [round.1.minimize metric, round.2.minimize metric], ∀ c ∈ A ∪ B,
        c ∈ peer.commitKeys ∨ ∃ head fragment state, peer.fragment? head = some fragment ∧
          (FromState knownA sedimentreeId fragmentMetaA head fragment state ∨
            FromState knownB sedimentreeId fragmentMetaB head fragment state) ∧
          c ∈ state.members := by
  obtain ⟨knownA, freshA, builtA, buildA⟩ := CommitGraph.exists_build closedA metric headsA
  obtain ⟨knownB, freshB, builtB, buildB⟩ := CommitGraph.exists_build closedB metric headsB
  refine ⟨knownA, freshA, knownB, freshB, builtA, builtB, ?_⟩
  intro round
  have replicaA := buildA.replicaTree closedA checkpoints sedimentreeId commitMetaA fragmentMetaA
    minimizedA
  have replicaB := buildB.replicaTree closedB checkpoints sedimentreeId commitMetaB fragmentMetaB
    minimizedB
  have first := replicaA.syncRound_fst replicaB closedA closedB fingerprints
  have second := replicaA.syncRound_snd replicaB closedA closedB fingerprints
  -- both peers: what is held survives the last minimization, and the fragments are old ones
  have conclude : ∀ peer : Sedimentree, Replica graph metric (A ∪ B) peer →
      (∀ head fragment, peer.fragment? head = some fragment →
        round.1.fragment? head = some fragment ∨ round.2.fragment? head = some fragment) →
      ∀ c ∈ A ∪ B, c ∈ (peer.minimize metric).commitKeys ∨ ∃ head fragment state,
        (peer.minimize metric).fragment? head = some fragment ∧
          (FromState knownA sedimentreeId fragmentMetaA head fragment state ∨
            FromState knownB sedimentreeId fragmentMetaB head fragment state) ∧
          c ∈ state.members := by
    intro peer replica old c member
    rcases (replica.minimize checkpoints).holds c member with loose | ⟨head, isHead, owns⟩
    · exact Or.inl loose
    · rw [Sedimentree.minimize_eq_minimizeInPlace] at isHead ⊢
      obtain ⟨fragment, stored⟩ := Sedimentree.mem_fragmentKeys.mp isHead
      have before := old head fragment (Sedimentree.fragment?_minimizeInPlace.mp stored).1
      rcases fragment?_syncRound before with fromA | fromB
      · obtain ⟨state, isState⟩ := buildA.fromState fromA
        exact Or.inr ⟨head, fragment, state, stored, Or.inl isState,
          ((buildA.canonical head state isState.1).members c).mpr owns⟩
      · obtain ⟨state, isState⟩ := buildB.fromState fromB
        exact Or.inr ⟨head, fragment, state, stored, Or.inr isState,
          ((buildB.canonical head state isState.1).members c).mpr owns⟩
  intro peer isPeer c member
  rw [List.mem_pair] at isPeer
  rcases isPeer with rfl | rfl
  · exact conclude round.1 first (fun _ _ stored => Or.inl stored) c member
  · exact conclude round.2 second (fun _ _ stored => Or.inr stored) c member

end Reconciliation

theorem sync_round_converges_diamond : letI : IterOrder CommitId := IterOrder.ascending CommitId
    letI : Blake3 := ⟨fun _ => 0⟩
    letI : Bijou64 := ⟨fun _ => []⟩
    letI : SipHash24 := numberHash
    let A : Finset CommitId := {.numbered 1, .numbered 2}
    let B : Finset CommitId := {.numbered 1, .numbered 3}
    diamond.AncestorClosed A ∧ diamond.AncestorClosed B ∧ ∃ knownA freshA knownB freshB,
        (diamond.store A).buildFragmentStore [.numbered 2] ∅ diamondMetric = (knownA, .ok freshA) ∧
        (diamond.store B).buildFragmentStore [.numbered 3] ∅ diamondMetric = (knownB, .ok freshB) ∧
        let round := Sedimentree.syncRound
          (replicaTree diamond A knownA ⟨0⟩ (fun _ => ⟨⟨0⟩, 0⟩) (fun _ => ⟨⟨0⟩, 0⟩) diamondMetric true)
          (replicaTree diamond B knownB ⟨0⟩ (fun _ => ⟨⟨0⟩, 0⟩) (fun _ => ⟨⟨0⟩, 0⟩) diamondMetric
            false) ⟨0, 0⟩
        ∀ peer ∈ [round.1.minimize diamondMetric, round.2.minimize diamondMetric], ∀ c ∈ A ∪ B,
          c ∈ peer.commitKeys ∨ ∃ head fragment state, peer.fragment? head = some fragment ∧
            (FromState knownA ⟨0⟩ (fun _ => ⟨⟨0⟩, 0⟩) head fragment state ∨
              FromState knownB ⟨0⟩ (fun _ => ⟨⟨0⟩, 0⟩) head fragment state) ∧
            c ∈ state.members := by
  let _ : IterOrder CommitId := IterOrder.ascending CommitId
  let _ : Blake3 := ⟨fun _ => 0⟩
  let _ : Bijou64 := ⟨fun _ => []⟩
  let _ : SipHash24 := numberHash
  have closedOf : ∀ part : Finset CommitId, (part ⊆ diamond.ids ∧ ∀ a ∈ part,
      ∀ node ∈ diamond.nodes.get? a, ∀ b ∈ node, b ∈ part) → diamond.AncestorClosed part :=
    fun part checked => ⟨checked.1, fun a inPart b ⟨node, found, isParent⟩ =>
      checked.2 a inPart node found b isParent⟩
  have closedA : diamond.AncestorClosed {.numbered 1, .numbered 2} := closedOf _ (by decide +kernel)
  have closedB : diamond.AncestorClosed {.numbered 1, .numbered 3} := closedOf _ (by decide +kernel)
  have fingerprints : ∀ a ∈ diamond.ids, ∀ b ∈ diamond.ids,
      Fingerprint.new ⟨0, 0⟩ a = Fingerprint.new ⟨0, 0⟩ b → a = b := by
    decide +kernel
  exact ⟨closedA, closedB, sync_round_converges diamond _ _ closedA closedB diamondMetric
    [.numbered 2] [.numbered 3] diamond_separated ⟨0, 0⟩
    (fun a memA b memB same => fingerprints a memA b memB same) ⟨0⟩ _ _ _ _ true false⟩

end Subduction
