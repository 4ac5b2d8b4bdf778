/-
**Reconciliation by fingerprints.**

The requestor sends a summary of its tree: keyed hashes of the identifiers it knows. The responder
compares it with its own tree: items the requestor does not know are sent in full, fingerprints the
responder does not know are echoed back, and the requestor resolves those with the table it kept.

* **`fingerprintResolver_summary`** — the resolver sends the same summary.
* **`mem_localOnlyCommits`** — the loose commits that are sent.
-/

import Subduction.Core.Sedimentree

set_option linter.unusedSectionVars false

namespace Subduction

open Relation IterOrder List FinMap

theorem Fingerprint.toNat_injective :
    Function.Injective fun fingerprint : Fingerprint => fingerprint.value.toNat :=
  fun ⟨_⟩ ⟨_⟩ same => congrArg mk (UInt64.toNat_inj.mp same)

instance : LinearOrder Fingerprint :=
  LinearOrder.lift' (fun fingerprint => fingerprint.value.toNat) Fingerprint.toNat_injective

/-- A keyed hash that reads the first twelve bytes of an identifier as a number. -/
@[reducible] def numberHash : SipHash24 :=
  ⟨fun _ _ bytes => UInt64.ofNat ((bytes.take 12).foldl (fun n byte => n * 256 + byte.toNat) 0)⟩

/-- A compact summary of a tree. -/
structure FingerprintSummary where
  seed : FingerprintSeed
  commitFingerprints : Finset Fingerprint
  fragmentFingerprints : Finset Fingerprint
deriving DecidableEq

/-- The comparison of a tree with a remote summary. -/
structure FingerprintDiff where
  localOnlyFragments : List (CommitId × Fragment)
  localOnlyCommits : List (CommitId × LooseCommit)
  remoteOnlyCommitFingerprints : List Fingerprint
  remoteOnlyFragmentFingerprints : List Fingerprint

/-- A summary with the table that resolves its fingerprints. -/
structure FingerprintResolver where
  summary : FingerprintSummary
  commitFpToId : FinMap Fingerprint CommitId
  fragmentFpToId : FinMap Fingerprint CommitId

/-- `FingerprintResolver::resolve_commit`. -/
def FingerprintResolver.resolveCommit (resolver : FingerprintResolver) (fp : Fingerprint) :
    Option CommitId := resolver.commitFpToId.get? fp

/-- `FingerprintResolver::resolve_fragment`. -/
def FingerprintResolver.resolveFragment (resolver : FingerprintResolver) (fp : Fingerprint) :
    Option CommitId := resolver.fragmentFpToId.get? fp

namespace Sedimentree

variable [SipHash24] [IterOrder CommitId]

section

variable (tree : Sedimentree)

variable (seed : FingerprintSeed)

def looseFingerprints : Finset Fingerprint :=
  (tree.commits.map.values.map fun commit => Fingerprint.new seed commit.head).toFinset

/-- The fingerprints of the heads and of the boundaries of the fragments, advertised as commits. -/
def coverageFingerprints : Finset Fingerprint :=
  tree.fragments.map.values.toFinset.biUnion fun fragment =>
    insert (Fingerprint.new seed fragment.head) (fragment.boundary.image (Fingerprint.new seed))

def fragmentFingerprints : Finset Fingerprint :=
  tree.fragmentKeys.image (Fingerprint.new seed)

/-- `Sedimentree::fingerprint_summarize`. -/
def fingerprintSummarize : FingerprintSummary :=
  ⟨seed, tree.looseFingerprints seed ∪ tree.coverageFingerprints seed, tree.fragmentFingerprints seed⟩

/-- The table from fingerprints to identifiers; of two identifiers with one fingerprint the later
one stays. -/
def fingerprintTable (ids : List CommitId) : FinMap Fingerprint CommitId :=
  ids.foldl (fun table id => table.insert (Fingerprint.new seed id) id) ∅

/-- `Sedimentree::fingerprint_resolver`. -/
def fingerprintResolver : FingerprintResolver :=
  let commitFpToId := fingerprintTable seed (tree.commits.map.values.map LooseCommit.head)
  let fragmentFpToId := fingerprintTable seed (IterOrder.list tree.fragmentKeys)
  ⟨⟨seed, commitFpToId.keys ∪ tree.coverageFingerprints seed, fragmentFpToId.keys⟩, commitFpToId,
    fragmentFpToId⟩

variable (remote : FingerprintSummary)

/-- The local heads that the remote has a fragment for. -/
def fragmentRoots : Finset CommitId :=
  ((tree.commits.map.values.map LooseCommit.head).toFinset
    ∪ (tree.fragments.map.values.map Fragment.head).toFinset).filter fun head =>
      Fingerprint.new remote.seed head ∈ remote.fragmentFingerprints

/-- Where the walk over covered commits goes: it does not pass a commit that the remote advertises,
unless the remote has a fragment for it. -/
def coverageSuccessors (id : CommitId) : List CommitId :=
  if id ∉ tree.fragmentRoots remote ∧ Fingerprint.new remote.seed id ∈ remote.commitFingerprints then
    []
  else
    match tree.commit? id with
    | some commit => IterOrder.list commit.parents
    | none => []

/-- The commits below the fragments of the remote. -/
def coveredByRemote : Finset CommitId :=
  Worklist.reach (tree.coverageSuccessors remote) tree.commitKeys
    (IterOrder.list (tree.fragmentRoots remote)).reverse

/-- `Sedimentree::diff_remote_fingerprints`. -/
def diffRemoteFingerprints : FingerprintDiff :=
  let missing := tree.commits.map.entries.filter fun entry =>
    Fingerprint.new remote.seed entry.2.head ∉ remote.commitFingerprints
  let localOnlyCommits :=
    if tree.fragmentRoots remote = ∅ then missing
    else missing.filter fun entry => entry.1 ∉ tree.coveredByRemote remote
  let localCommitFps := tree.looseFingerprints remote.seed ∪ tree.coverageFingerprints remote.seed
  let localFragmentFps := tree.fragmentFingerprints remote.seed
  { localOnlyFragments := tree.fragments.map.entries.filter fun entry =>
      Fingerprint.new remote.seed entry.1 ∉ remote.fragmentFingerprints
    localOnlyCommits := localOnlyCommits
    remoteOnlyCommitFingerprints :=
      (ascendingList remote.commitFingerprints).filter fun fp => fp ∉ localCommitFps
    remoteOnlyFragmentFingerprints :=
      (ascendingList remote.fragmentFingerprints).filter fun fp => fp ∉ localFragmentFps }

end

section Round

variable [Blake3] [Bijou64]

/-- Add received items one by one. -/
def ingest (tree : Sedimentree) (fragments : List Fragment) (commits : List LooseCommit) :
    Sedimentree :=
  commits.foldl (fun tree commit => (tree.addCommit commit).1)
    (fragments.foldl (fun tree fragment => (tree.addFragment fragment).1) tree)

/-- **One round** between a requestor and a responder: the trees of both afterwards. -/
def syncRound (requestor responder : Sedimentree) (seed : FingerprintSeed) :
    Sedimentree × Sedimentree :=
  let resolver := requestor.fingerprintResolver seed
  let diff := responder.diffRemoteFingerprints resolver.summary
  (requestor.ingest (diff.localOnlyFragments.map Prod.snd) (diff.localOnlyCommits.map Prod.snd),
    responder.ingest (diff.remoteOnlyFragmentFingerprints.filterMap fun fp =>
        (resolver.resolveFragment fp).bind requestor.fragment?)
      (diff.remoteOnlyCommitFingerprints.filterMap fun fp =>
        (resolver.resolveCommit fp).bind requestor.commit?))

end Round

/-! ### What a summary says -/

variable {tree : Sedimentree} {seed : FingerprintSeed} {remote : FingerprintSummary}

/-- The identifiers a tree advertises as commits: its loose commits, and the heads and the boundary
commits of its fragments. -/
def Advertised (tree : Sedimentree) (id : CommitId) : Prop :=
  id ∈ tree.commitKeys ∨ id ∈ tree.fragmentKeys ∨
    ∃ h fragment, tree.fragment? h = some fragment ∧ id ∈ fragment.boundary

variable {fp : Fingerprint} {id : CommitId}

theorem mem_looseFingerprints :
    fp ∈ tree.looseFingerprints seed ↔ ∃ id ∈ tree.commitKeys, Fingerprint.new seed id = fp := by
  unfold looseFingerprints
  rw [mem_toFinset, mem_map]
  refine ⟨fun ⟨commit, member, isFp⟩ => ?_, fun ⟨id, member, isFp⟩ => ?_⟩
  · exact ⟨commit.head, mem_keys.mpr ⟨commit, Shelf.mem_values.mp member⟩, isFp⟩
  · obtain ⟨commit, stored⟩ := mem_keys.mp member
    have isHead : commit.head = id := tree.commits.head_eq stored
    exact ⟨commit, mem_values.mpr ⟨id, stored⟩, isHead.symm ▸ isFp⟩

theorem mem_coverageFingerprints :
    fp ∈ tree.coverageFingerprints seed ↔ ∃ id, (id ∈ tree.fragmentKeys ∨
      ∃ h fragment, tree.fragment? h = some fragment ∧ id ∈ fragment.boundary) ∧
        Fingerprint.new seed id = fp := by
  unfold coverageFingerprints
  simp only [Finset.mem_biUnion, mem_toFinset, mem_values, Finset.mem_insert, Finset.mem_image]
  refine ⟨fun ⟨fragment, ⟨h, stored⟩, either⟩ => ?_, fun ⟨id, known, isFp⟩ => ?_⟩
  · rcases either with isFp | ⟨b, inBoundary, isFp⟩
    · have isHead : fragment.head = h := tree.fragments.head_eq stored
      exact ⟨h, Or.inl (mem_keys_of_get? stored), isHead ▸ isFp.symm⟩
    · exact ⟨b, Or.inr ⟨h, fragment, stored, inBoundary⟩, isFp⟩
  · rcases known with isHead | ⟨h, fragment, stored, inBoundary⟩
    · obtain ⟨fragment, stored⟩ := mem_keys.mp isHead
      have isHead : fragment.head = id := tree.fragments.head_eq stored
      exact ⟨fragment, ⟨id, stored⟩, Or.inl (isHead.symm ▸ isFp.symm)⟩
    · exact ⟨fragment, ⟨h, stored⟩, Or.inr ⟨id, inBoundary, isFp⟩⟩

theorem mem_advertised : fp ∈ tree.looseFingerprints seed ∪ tree.coverageFingerprints seed ↔
      ∃ id, tree.Advertised id ∧ Fingerprint.new seed id = fp := by
  rw [Finset.mem_union, mem_looseFingerprints, mem_coverageFingerprints]
  refine ⟨fun either => ?_, fun ⟨id, known, isFp⟩ => ?_⟩
  · rcases either with ⟨id, loose, isFp⟩ | ⟨id, covered, isFp⟩
    · exact ⟨id, Or.inl loose, isFp⟩
    · exact ⟨id, Or.inr covered, isFp⟩
  · rcases known with loose | covered
    · exact Or.inl ⟨id, loose, isFp⟩
    · exact Or.inr ⟨id, covered, isFp⟩

theorem mem_fragmentFingerprints :
    fp ∈ tree.fragmentFingerprints seed ↔ ∃ id ∈ tree.fragmentKeys, Fingerprint.new seed id = fp :=
  Finset.mem_image

/-! ### The table -/

theorem keys_foldl_insert (ids : List CommitId) :
    ∀ (table : FinMap Fingerprint CommitId) (fp : Fingerprint),
      fp ∈ (ids.foldl (fun table id => table.insert (Fingerprint.new seed id) id) table).keys ↔
        fp ∈ table.keys ∨ ∃ id ∈ ids, Fingerprint.new seed id = fp := by
  induction ids with
  | nil =>
    intro table fp
    simp
  | cons id ids ih =>
    intro table fp
    rw [foldl_cons, ih, keys_insert, Finset.mem_insert, exists_mem_cons_iff,
      or_comm (a := fp = Fingerprint.new seed id), or_assoc, eq_comm]

theorem mem_keys_fingerprintTable {ids : List CommitId} :
    fp ∈ (fingerprintTable seed ids).keys ↔ ∃ id ∈ ids, Fingerprint.new seed id = fp := by
  unfold fingerprintTable
  rw [keys_foldl_insert, keys_empty]
  exact or_iff_right (Finset.notMem_empty fp)

theorem get?_foldl_insert (ids : List CommitId) : ∀ table : FinMap Fingerprint CommitId,
      (ids.foldl (fun table id => table.insert (Fingerprint.new seed id) id) table).get? fp =
        some id → table.get? fp = some id ∨ id ∈ ids ∧ Fingerprint.new seed id = fp := by
  induction ids with
  | nil => exact fun table found => Or.inl found
  | cons first ids ih =>
    intro table found
    rcases ih _ found with old | ⟨listed, isFp⟩
    · rcases of_get?_insert old with ⟨same, rfl⟩ | ⟨-, older⟩
      · exact Or.inr ⟨mem_cons_self, same.symm⟩
      · exact Or.inl older
    · exact Or.inr ⟨mem_cons_of_mem _ listed, isFp⟩

theorem fingerprintTable_get? {ids : List CommitId}
    (found : (fingerprintTable seed ids).get? fp = some id) :
    id ∈ ids ∧ Fingerprint.new seed id = fp :=
  (get?_foldl_insert ids _ found).resolve_left (by simp)

theorem fingerprintTable_resolve {ids : List CommitId}
    (separated : Set.InjOn (Fingerprint.new seed) {id | id ∈ ids}) (listed : id ∈ ids) :
    (fingerprintTable seed ids).get? (Fingerprint.new seed id) = some id := by
  obtain ⟨other, found⟩ := mem_keys.mp (mem_keys_fingerprintTable.mpr ⟨id, listed, rfl⟩)
  obtain ⟨listedOther, same⟩ := fingerprintTable_get? found
  rw [found, separated listedOther listed same]

theorem fingerprintResolver_summary (tree : Sedimentree) (seed : FingerprintSeed) :
    (tree.fingerprintResolver seed).summary = tree.fingerprintSummarize seed := by
  have loose : (fingerprintTable seed (tree.commits.map.values.map LooseCommit.head)).keys =
      tree.looseFingerprints seed := by
    ext fp
    rw [mem_keys_fingerprintTable, mem_looseFingerprints]
    exact exists_congr fun id => and_congr_left fun _ => mem_commit_heads
  have fragments : (fingerprintTable seed (IterOrder.list tree.fragmentKeys)).keys =
      tree.fragmentFingerprints seed := by
    ext fp
    rw [mem_keys_fingerprintTable, mem_fragmentFingerprints]
    exact exists_congr fun id => and_congr_left fun _ => mem_list
  unfold fingerprintResolver fingerprintSummarize
  dsimp only
  rw [loose, fragments]

/-! ### What is sent -/

/-- One step of the walk over covered commits. -/
def CoverageStep (tree : Sedimentree) (remote : FingerprintSummary) (a b : CommitId) : Prop :=
  ¬ (a ∉ tree.fragmentRoots remote ∧ Fingerprint.new remote.seed a ∈ remote.commitFingerprints) ∧
    ∃ commit, tree.commit? a = some commit ∧ b ∈ commit.parents

theorem mem_fragmentRoots :
    id ∈ tree.fragmentRoots remote ↔ (id ∈ tree.commitKeys ∨ id ∈ tree.fragmentKeys) ∧
      Fingerprint.new remote.seed id ∈ remote.fragmentFingerprints := by
  have fragmentHeads : id ∈ tree.fragments.map.values.map Fragment.head ↔
      id ∈ tree.fragmentKeys := by
    rw [mem_map, mem_fragmentKeys]
    refine ⟨fun ⟨fragment, member, isHead⟩ => ?_, fun ⟨fragment, stored⟩ => ?_⟩
    · rw [← isHead]
      exact ⟨fragment, mem_fragments_values.mp member⟩
    · exact ⟨fragment, mem_values.mpr ⟨id, stored⟩, head_of_fragment? stored⟩
  unfold fragmentRoots
  rw [Finset.mem_filter, Finset.mem_union, mem_toFinset, mem_toFinset, mem_commit_heads,
    fragmentHeads]

theorem mem_coverageSuccessors {a b : CommitId} :
    b ∈ tree.coverageSuccessors remote a ↔ tree.CoverageStep remote a b := by
  unfold coverageSuccessors CoverageStep
  by_cases horizon : a ∉ tree.fragmentRoots remote ∧
      Fingerprint.new remote.seed a ∈ remote.commitFingerprints
  · rw [if_pos horizon]
    exact ⟨fun none => absurd none not_mem_nil, fun step => absurd horizon step.1⟩
  · rw [if_neg horizon]
    cases stored : tree.commit? a with
    | none => simp
    | some commit =>
      refine ⟨fun listed => ⟨horizon, commit, rfl, mem_list.mp listed⟩, fun step => ?_⟩
      obtain ⟨other, same, isParent⟩ := step.2
      rw [Option.some.inj same]
      exact mem_list.mpr isParent

theorem mem_coveredByRemote : id ∈ tree.coveredByRemote remote ↔
      ∃ root ∈ tree.fragmentRoots remote, ReflTransGen (tree.CoverageStep remote) root id := by
  have outside : ∀ a ∉ tree.commitKeys, tree.coverageSuccessors remote a = [] := by
    intro a absent
    refine eq_nil_iff_forall_not_mem.mpr fun b pushed => absent ?_
    obtain ⟨commit, stored, -⟩ := (mem_coverageSuccessors.mp pushed).2
    exact mem_commitKeys.mpr ⟨commit, stored⟩
  have sameStep : (fun a b => b ∈ tree.coverageSuccessors remote a) = tree.CoverageStep remote :=
    funext fun _ => funext fun _ => propext mem_coverageSuccessors
  unfold coveredByRemote
  rw [Worklist.mem_reach outside, sameStep]
  refine exists_congr fun root => and_congr_left fun _ => ?_
  rw [mem_reverse, mem_list]

theorem mem_localOnlyCommits {commit : LooseCommit} :
    (id, commit) ∈ (tree.diffRemoteFingerprints remote).localOnlyCommits ↔
      tree.commit? id = some commit ∧ Fingerprint.new remote.seed id ∉ remote.commitFingerprints ∧
        id ∉ tree.coveredByRemote remote := by
  have missing : (id, commit) ∈ tree.commits.map.entries.filter (fun entry =>
      Fingerprint.new remote.seed entry.2.head ∉ remote.commitFingerprints) ↔
      tree.commit? id = some commit ∧
        Fingerprint.new remote.seed id ∉ remote.commitFingerprints := by
    rw [mem_filter, mem_entries, decide_eq_true_eq]
    refine and_congr_right fun stored => ?_
    rw [head_of_commit? stored]
  unfold diffRemoteFingerprints
  dsimp only
  by_cases none : tree.fragmentRoots remote = ∅
  · rw [if_pos none, missing]
    refine ⟨fun both => ⟨both.1, both.2, fun covered => ?_⟩, fun all => ⟨all.1, all.2.1⟩⟩
    obtain ⟨root, isRoot, -⟩ := mem_coveredByRemote.mp covered
    rw [none] at isRoot
    exact absurd isRoot (Finset.notMem_empty root)
  · rw [if_neg none, mem_filter, missing, decide_eq_true_eq, and_assoc]

theorem mem_localOnlyFragments {fragment : Fragment} :
    (id, fragment) ∈ (tree.diffRemoteFingerprints remote).localOnlyFragments ↔
      tree.fragment? id = some fragment ∧
        Fingerprint.new remote.seed id ∉ remote.fragmentFingerprints := by
  unfold diffRemoteFingerprints
  dsimp only
  rw [mem_filter, mem_entries, decide_eq_true_eq]
  exact Iff.rfl

theorem mem_remoteOnlyCommitFingerprints :
    fp ∈ (tree.diffRemoteFingerprints remote).remoteOnlyCommitFingerprints ↔
      fp ∈ remote.commitFingerprints ∧
        ¬ ∃ id, tree.Advertised id ∧ Fingerprint.new remote.seed id = fp := by
  unfold diffRemoteFingerprints
  dsimp only
  rw [mem_filter, mem_ascendingList, decide_eq_true_eq, mem_advertised]

theorem mem_remoteOnlyFragmentFingerprints :
    fp ∈ (tree.diffRemoteFingerprints remote).remoteOnlyFragmentFingerprints ↔
      fp ∈ remote.fragmentFingerprints ∧
        ¬ ∃ id ∈ tree.fragmentKeys, Fingerprint.new remote.seed id = fp := by
  unfold diffRemoteFingerprints
  dsimp only
  rw [mem_filter, mem_ascendingList, decide_eq_true_eq, mem_fragmentFingerprints]

/-! ### Ingesting -/

section Ingest

variable [Blake3] [Bijou64]

theorem foldl_addFragment (fragments : List Fragment) :
    ∀ tree : Sedimentree, fragments.foldl (fun tree fragment => (tree.addFragment fragment).1) tree =
      ⟨fragments.foldl Shelf.insert tree.fragments, tree.commits⟩ := by
  induction fragments with
  | nil => exact fun _ => rfl
  | cons fragment fragments ih =>
    intro tree
    rw [foldl_cons, foldl_cons, ih]
    unfold addFragment
    rw [Shelf.add_fst]

theorem foldl_addCommit (commits : List LooseCommit) :
    ∀ tree : Sedimentree, commits.foldl (fun tree commit => (tree.addCommit commit).1) tree =
      ⟨tree.fragments, commits.foldl Shelf.insert tree.commits⟩ := by
  induction commits with
  | nil => exact fun _ => rfl
  | cons commit commits ih =>
    intro tree
    rw [foldl_cons, foldl_cons, ih]
    unfold addCommit
    rw [Shelf.add_fst]

theorem ingest_eq (tree : Sedimentree) (fragments : List Fragment) (commits : List LooseCommit) :
    tree.ingest fragments commits = ⟨fragments.foldl Shelf.insert tree.fragments,
      commits.foldl Shelf.insert tree.commits⟩ := by
  unfold ingest
  rw [foldl_addCommit, foldl_addFragment]

variable {fragments : List Fragment} {commits : List LooseCommit}

theorem fragment?_ingest {id : CommitId}
    {fragment : Fragment} (stored : (tree.ingest fragments commits).fragment? id = some fragment) :
    tree.fragment? id = some fragment ∨ fragment ∈ fragments := by
  rw [ingest_eq] at stored
  exact Shelf.get?_foldl_insert stored

theorem commit?_ingest {id : CommitId}
    {commit : LooseCommit} (stored : (tree.ingest fragments commits).commit? id = some commit) :
    tree.commit? id = some commit ∨ commit ∈ commits := by
  rw [ingest_eq] at stored
  exact Shelf.get?_foldl_insert stored

theorem mem_fragmentKeys_ingest
    {id : CommitId} : id ∈ (tree.ingest fragments commits).fragmentKeys ↔
      id ∈ tree.fragmentKeys ∨ ∃ fragment ∈ fragments, fragment.head = id := by
  rw [ingest_eq]
  exact Shelf.mem_keys_foldl_insert

theorem mem_commitKeys_ingest
    {id : CommitId} : id ∈ (tree.ingest fragments commits).commitKeys ↔
      id ∈ tree.commitKeys ∨ ∃ commit ∈ commits, commit.head = id := by
  rw [ingest_eq]
  exact Shelf.mem_keys_foldl_insert

end Ingest

end Sedimentree

end Subduction
