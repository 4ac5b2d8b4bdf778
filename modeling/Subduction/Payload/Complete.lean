/-
**Complete trees: minimization keeps every commit, and the heads are the tips.**

The tree of a part of a commit graph has all loose commits and all fragments that the builder
builds for the part.

Main results: `minimize_keeps_every_commit`, `heads_are_tips`.
-/

import Subduction.Payload.Graph

set_option linter.unusedSectionVars false

namespace Subduction

open Relation Strata Sedimentree CommitGraph

/-! ### The tree of a build -/

section Minimization

variable {Node : Type} [Parents Node] [IterOrder CommitId] [Blake3] [Bijou64]

/-- **A build of a part**: the states are canonical, and with a head they have the rim of it. -/
structure IsBuild (graph : CommitGraph Node) (part : Finset CommitId) (metric : DepthMetric)
    (known : FinMap CommitId (FragmentState Node)) : Prop where
  mem : ∀ a ∈ known.keys, a ∈ part ∧ 0 < metric a
  rim : ∀ a ∈ known.keys, ∀ b, Rim graph.edge metric a b → b ∈ known.keys
  canonical : ∀ a state, known.get? a = some state → CommitStore.Canonical graph.edge metric a state

variable {graph : CommitGraph Node} {part : Finset CommitId} {metric : DepthMetric}

theorem CommitGraph.exists_build (closed : graph.AncestorClosed part) (metric : DepthMetric)
    (headIds : List CommitId) :
    ∃ known fresh, (graph.store part).buildFragmentStore headIds ∅ metric = (known, .ok fresh) ∧
      IsBuild graph part metric known := by
  obtain ⟨known, fresh, built, keys, rim, canonical⟩ :=
    CommitStore.buildFragmentStore_canonical (graph.serves closed) graph.founded headIds metric
  exact ⟨known, fresh, built, fun a isHead => ⟨((keys a).mp isHead).1, ((keys a).mp isHead).2.1⟩,
    rim, canonical⟩

section Tree

variable {known : FinMap CommitId (FragmentState Node)} (sedimentreeId : SedimentreeId)
  (commitMeta fragmentMeta : CommitId → BlobMeta)

theorem CommitGraph.mem_commitKeys_tree (inGraph : part ⊆ graph.ids) {id : CommitId} :
    id ∈ (graph.tree part known sedimentreeId commitMeta fragmentMeta).commitKeys ↔ id ∈ part := by
  refine (Shelf.holds_ofList (graph.looseCommits part sedimentreeId commitMeta)).mem_keys.trans
    ⟨fun ⟨commit, listed, isHead⟩ => ?_, fun inPart => ?_⟩
  · rw [← isHead]
    exact (mem_looseCommits.mp listed).1
  · obtain ⟨node, found⟩ := FinMap.mem_keys.mp (inGraph inPart)
    exact ⟨⟨sedimentreeId, id, Parents.parents node, commitMeta id⟩,
      mem_looseCommits.mpr ⟨inPart, node, found, rfl⟩, rfl⟩

theorem IsBuild.mem_fragmentKeys_tree (build : IsBuild graph part metric known) {id : CommitId} :
    id ∈ (graph.tree part known sedimentreeId commitMeta fragmentMeta).fragmentKeys ↔
      id ∈ known.keys := by
  refine (Shelf.holds_ofList (CommitGraph.stateFragments known sedimentreeId
    fragmentMeta)).mem_keys.trans ⟨fun ⟨fragment, listed, isHead⟩ => ?_, fun isHead => ?_⟩
  · obtain ⟨key, state, found, rfl⟩ := mem_stateFragments.mp listed
    have headId : state.headId = id := isHead
    rw [← headId, (build.canonical key state found).headId]
    exact FinMap.mem_keys_of_get? found
  · obtain ⟨state, found⟩ := FinMap.mem_keys.mp isHead
    exact ⟨_, mem_stateFragments.mpr ⟨id, state, found, rfl⟩,
      (build.canonical id state found).headId⟩

theorem IsBuild.honest (build : IsBuild graph part metric known)
    (closed : graph.AncestorClosed part) :
    Honest graph metric (graph.tree part known sedimentreeId commitMeta fragmentMeta) where
  mem member := closed.1 ((mem_commitKeys_tree _ _ _ closed.1).mp member)
  parents {id commit} stored b := by
    have isHead := head_of_commit? stored
    have listed := (Shelf.holds_ofList (graph.looseCommits part sedimentreeId commitMeta)).candidate
      stored
    obtain ⟨-, node, found, same⟩ := mem_looseCommits.mp listed
    rw [isHead] at found same
    rw [same]
    refine ⟨fun isParent => ⟨node, found, isParent⟩, fun step => ?_⟩
    obtain ⟨other, foundOther, isParent⟩ := step
    rw [Option.some.inj (found.symm.trans foundOther)]
    exact isParent
  stratum {id fragment} stored := by
    have isHead := head_of_fragment? stored
    have listed := (Shelf.holds_ofList (CommitGraph.stateFragments known sedimentreeId
      fragmentMeta)).candidate stored
    obtain ⟨key, state, found, rfl⟩ := mem_stateFragments.mp listed
    have canonical := build.canonical key state found
    have sameKey : key = id := canonical.headId.symm.trans isHead
    obtain ⟨inPart, positive⟩ := build.mem key (FinMap.mem_keys_of_get? found)
    rw [← sameKey]
    exact isStratum_toFragment canonical (closed.1 inPart) positive _ _
  closed := Closed.of_rim graph.founded fun a isHead b step =>
    (build.mem_fragmentKeys_tree _ _ _).mpr
      (build.rim a ((build.mem_fragmentKeys_tree _ _ _).mp isHead) b step)

end Tree

/-! ### Minimization -/

/-- **Minimization keeps every commit.** For every commit graph, every depth metric and every list
of heads, the builder succeeds, and in the minimized complete tree every commit is loose or a member
of the state of a fragment that is kept. -/
theorem minimize_keeps_every_commit (graph : CommitGraph Node) (metric : DepthMetric)
    (headIds : List CommitId) (separated : Set.InjOn Checkpoint.new (graph.ids : Set CommitId))
    (sedimentreeId : SedimentreeId) (commitMeta fragmentMeta : CommitId → BlobMeta) :
    ∃ known fresh,
      (graph.store graph.ids).buildFragmentStore headIds ∅ metric = (known, .ok fresh) ∧
      ∀ c ∈ graph.ids, let minimized :=
          (graph.tree graph.ids known sedimentreeId commitMeta fragmentMeta).minimize metric
        c ∈ minimized.commitKeys ∨
          ∃ head ∈ minimized.fragmentKeys, ∃ state, known.get? head = some state ∧
            c ∈ state.members := by
  have closed := graph.ancestorClosed_ids
  obtain ⟨known, fresh, built, build⟩ := CommitGraph.exists_build closed metric headIds
  refine ⟨known, fresh, built, fun c member => ?_⟩
  have honest := build.honest sedimentreeId commitMeta fragmentMeta closed
  have loose : c ∈ (graph.tree graph.ids known sedimentreeId commitMeta fragmentMeta).commitKeys :=
    (CommitGraph.mem_commitKeys_tree _ _ _ closed.1).mpr member
  dsimp only
  rw [Sedimentree.minimize_eq_minimizeInPlace]
  rcases honest.holds_minimize separated (Or.inl loose) with stays | ⟨head, isHead, owns⟩
  · exact Or.inl stays
  · have inTree := Sedimentree.fragmentKeys_minimizeInPlace_subset _ metric isHead
    obtain ⟨state, found⟩ := FinMap.mem_keys.mp ((build.mem_fragmentKeys_tree _ _ _).mp inTree)
    exact Or.inr ⟨head, isHead, state, found, ((build.canonical head state found).members c).mpr owns⟩

end Minimization

/-- A merge: the commit 4 has the parents 2 and 3, which both have the parent 1. -/
def diamond : CommitGraph (Finset CommitId) :=
  CommitGraph.ofDescending
    ((((∅ : FinMap CommitId (Finset CommitId)).insert (.numbered 1) ∅).insert (.numbered 2)
      {.numbered 1}).insert (.numbered 3) {.numbered 1} |>.insert (.numbered 4)
      {.numbered 2, .numbered 3})
    (by decide +kernel)

def diamondMetric : DepthMetric :=
  fun id => if id = .numbered 1 ∨ id = .numbered 4 then 1 else 0

theorem diamond_separated : Set.InjOn Checkpoint.new (diamond.ids : Set CommitId) := by
  have all : ∀ a ∈ diamond.ids, ∀ b ∈ diamond.ids, Checkpoint.new a = Checkpoint.new b → a = b := by
    decide +kernel
  exact fun a memA b memB same => all a memA b memB same

theorem minimize_keeps_every_commit_diamond :
    letI : IterOrder CommitId := IterOrder.ascending CommitId
    letI : Blake3 := ⟨fun _ => 0⟩
    letI : Bijou64 := ⟨fun _ => []⟩
    Set.InjOn Checkpoint.new (diamond.ids : Set CommitId) ∧
      ∃ known fresh, (diamond.store diamond.ids).buildFragmentStore [.numbered 4] ∅ diamondMetric =
          (known, .ok fresh) ∧
        ∀ c ∈ diamond.ids, let minimized := (diamond.tree diamond.ids known ⟨0⟩ (fun _ => ⟨⟨0⟩, 0⟩)
            (fun _ => ⟨⟨0⟩, 0⟩)).minimize diamondMetric
          c ∈ minimized.commitKeys ∨ ∃ head ∈ minimized.fragmentKeys, ∃ state,
            known.get? head = some state ∧ c ∈ state.members := by
  let _ : IterOrder CommitId := IterOrder.ascending CommitId
  let _ : Blake3 := ⟨fun _ => 0⟩
  let _ : Bijou64 := ⟨fun _ => []⟩
  exact ⟨diamond_separated, minimize_keeps_every_commit diamond diamondMetric [.numbered 4]
    diamond_separated ⟨0⟩ (fun _ => ⟨⟨0⟩, 0⟩) (fun _ => ⟨⟨0⟩, 0⟩)⟩

/-! ### Heads -/

section Heads

variable {Node : Type} [Parents Node] [IterOrder CommitId] [Blake3] [Bijou64]

section Honest

variable {graph : CommitGraph Node} {metric : DepthMetric} {tree : Sedimentree}
  (honest : Honest graph metric tree)
  (separated : Set.InjOn Checkpoint.new (graph.ids : Set CommitId))
  (full : ∀ id ∈ graph.ids, id ∈ tree.commitKeys)
include honest separated

theorem Honest.child_of_referenced {c h : CommitId} {fragment : Fragment}
    (stored : tree.fragment? h = some fragment) (mem : c ∈ graph.ids)
    (referenced : c ∈ fragment.boundary ∨ Checkpoint.new c ∈ fragment.checkpoints) :
    ∃ child, graph.edge child c := by
  rcases referenced with inBoundary | isCheckpoint
  · obtain ⟨a, -, step, -⟩ := ((honest.stratum stored).boundary c).mp inBoundary
    exact ⟨a, step⟩
  · obtain ⟨owned, -, shallow⟩ := (honest.point_of_checkpoint separated stored mem).mp isCheckpoint
    rcases ReflTransGen.cases_tail owned.1.path with same | ⟨a, -, step⟩
    · rw [same] at shallow
      exact absurd shallow (lt_irrefl _)
    · exact ⟨a, step⟩

include full

theorem Honest.tip_mem_heads {c : CommitId} (mem : c ∈ graph.ids)
    (isTip : ∀ child, ¬ graph.edge child c) :
    c ∈ (tree.minimizeInPlace metric).headsAssumingMinimal := by
  have minimal := honest.minimize separated
  refine mem_headsAssumingMinimal.mpr ⟨?_, fun a commit stored isParent => ?_,
    fun h fragment stored => ⟨fun inBoundary => ?_, fun isCheckpoint => ?_⟩⟩
  · by_cases stays : c ∈ (tree.minimizeInPlace metric).commitKeys
    · exact Or.inr stays
    · obtain ⟨h, isHead, spans⟩ := honest.span_of_dropped separated (full c mem) stays
      rcases ReflTransGen.cases_tail spans.path with same | ⟨a, -, step⟩
      · rw [same]
        exact Or.inl isHead
      · exact absurd step (isTip a)
  · exact isTip a ((minimal.parents stored c).mp isParent)
  · obtain ⟨child, step⟩ := minimal.child_of_referenced separated stored mem (Or.inl inBoundary)
    exact isTip child step
  · obtain ⟨child, step⟩ := minimal.child_of_referenced separated stored mem (Or.inr isCheckpoint)
    exact isTip child step

theorem Honest.kept_child {c child : CommitId} (stays : c ∈ (tree.minimizeInPlace metric).commitKeys)
    (step : graph.edge child c) (flat : metric c = 0) :
    ∃ a ∈ (tree.minimizeInPlace metric).commitKeys, graph.edge a c := by
  obtain ⟨range, met, uncovered⟩ := mem_minimize_commits.mp stays
  obtain ⟨commit, stored⟩ := mem_commitKeys.mp (full child (edge_source step))
  have link : tree.Link child c :=
    ⟨commit, stored, (honest.parents stored c).mpr step, met.mem_commitKeys⟩
  cases met with
  | tip isTip => exact absurd link (isTip.2 child)
  | @step a _ before met link =>
    have sameRange : CommitDag.rangeAt metric c before = before := by
      unfold CommitDag.rangeAt
      rw [flat]
      rfl
    rw [sameRange] at uncovered
    exact ⟨a, mem_minimize_commits.mpr ⟨before, met, uncovered⟩, honest.link_edge link⟩

theorem Honest.not_mem_heads {c child : CommitId} (step : graph.edge child c) :
    c ∉ (tree.minimizeInPlace metric).headsAssumingMinimal := by
  have minimal := honest.minimize separated
  intro isHead
  obtain ⟨stays, notParent, notInside⟩ := mem_headsAssumingMinimal.mp isHead
  have noKeptChild : ∀ a ∈ (tree.minimizeInPlace metric).commitKeys, ¬ graph.edge a c := by
    intro a staysA step
    obtain ⟨commit, stored⟩ := mem_commitKeys.mp staysA
    exact notParent a commit stored ((minimal.parents stored c).mpr step)
  have memChild : child ∈ graph.ids := edge_source step
  have dropped : child ∉ (tree.minimizeInPlace metric).commitKeys :=
    fun staysChild => noKeptChild child staysChild step
  obtain ⟨h, isFragment, spans⟩ := honest.span_of_dropped separated (full child memChild) dropped
  have notRim : ∀ g ∈ (tree.minimizeInPlace metric).fragmentKeys, ¬ Rim graph.edge metric g c := by
    intro g isFragment rim
    obtain ⟨fragment, stored⟩ := mem_fragmentKeys.mp isFragment
    exact (notInside g fragment stored).1 (((minimal.stratum stored).boundary c).mpr rim)
  have spansC := (spans.step step).resolve_right (notRim h isFragment)
  have shallow : metric c < metric h := by
    refine spansC.eq_or_depth_lt.resolve_left fun same => ?_
    rw [same] at step
    exact graph.acyclic h (TransGen.tail' spans.path step)
  rcases Nat.eq_zero_or_pos (metric c) with flat | positive
  · have loose : c ∈ (tree.minimizeInPlace metric).commitKeys := by
      refine stays.resolve_left fun isFragment => ?_
      obtain ⟨fragment, stored⟩ := mem_fragmentKeys.mp isFragment
      exact absurd (minimal.stratum stored).positive (flat ▸ lt_irrefl _)
    obtain ⟨a, staysA, stepA⟩ := honest.kept_child separated full loose step flat
    exact noKeptChild a staysA stepA
  · obtain ⟨g, isFragment, deeper, owns⟩ := minimal.closed h isFragment c spansC
    obtain ⟨fragment, stored⟩ := mem_fragmentKeys.mp isFragment
    refine (notInside g fragment stored).2 (((minimal.stratum stored).checkpoints _).mpr ⟨c, ?_, rfl⟩)
    exact ⟨owns, positive, shallow.trans_le deeper⟩

end Honest

/-- **The heads of a complete tree are the tips of the commit graph**: the commits that are no
parent of another. -/
theorem heads_are_tips (graph : CommitGraph Node) (metric : DepthMetric) (headIds : List CommitId)
    (separated : Set.InjOn Checkpoint.new (graph.ids : Set CommitId))
    (sedimentreeId : SedimentreeId) (commitMeta fragmentMeta : CommitId → BlobMeta) :
    ∃ known fresh,
      (graph.store graph.ids).buildFragmentStore headIds ∅ metric = (known, .ok fresh) ∧
      ∀ c, c ∈ (graph.tree graph.ids known sedimentreeId commitMeta fragmentMeta).heads metric ↔
        c ∈ graph.ids ∧ ∀ child, ¬ graph.edge child c := by
  have closed := graph.ancestorClosed_ids
  obtain ⟨known, fresh, built, build⟩ := CommitGraph.exists_build closed metric headIds
  have honest := build.honest sedimentreeId commitMeta fragmentMeta closed
  have full : ∀ id ∈ graph.ids,
      id ∈ (graph.tree graph.ids known sedimentreeId commitMeta fragmentMeta).commitKeys :=
    fun id member => (CommitGraph.mem_commitKeys_tree _ _ _ closed.1).mpr member
  refine ⟨known, fresh, built, fun c => ?_⟩
  unfold Sedimentree.heads
  rw [Sedimentree.minimize_eq_minimizeInPlace]
  refine ⟨fun isHead => ⟨?_, fun child step => honest.not_mem_heads separated full step isHead⟩,
    fun ⟨mem, isTip⟩ => honest.tip_mem_heads separated full mem isTip⟩
  rcases (Sedimentree.mem_headsAssumingMinimal.mp isHead).1 with isFragment | isLoose
  · obtain ⟨fragment, stored⟩ := Sedimentree.mem_fragmentKeys.mp isFragment
    exact ((honest.minimize separated).stratum stored).mem
  · exact (honest.minimize separated).mem isLoose

end Heads

theorem heads_are_tips_diamond : letI : IterOrder CommitId := IterOrder.ascending CommitId
    letI : Blake3 := ⟨fun _ => 0⟩
    letI : Bijou64 := ⟨fun _ => []⟩
    Set.InjOn Checkpoint.new (diamond.ids : Set CommitId) ∧
      ∃ known fresh, (diamond.store diamond.ids).buildFragmentStore [.numbered 4] ∅ diamondMetric =
          (known, .ok fresh) ∧
        ∀ c, c ∈ (diamond.tree diamond.ids known ⟨0⟩ (fun _ => ⟨⟨0⟩, 0⟩)
            (fun _ => ⟨⟨0⟩, 0⟩)).heads diamondMetric ↔
          c ∈ diamond.ids ∧ ∀ child, ¬ diamond.edge child c := by
  let _ : IterOrder CommitId := IterOrder.ascending CommitId
  let _ : Blake3 := ⟨fun _ => 0⟩
  let _ : Bijou64 := ⟨fun _ => []⟩
  exact ⟨diamond_separated, heads_are_tips diamond diamondMetric [.numbered 4] diamond_separated ⟨0⟩
    (fun _ => ⟨⟨0⟩, 0⟩) (fun _ => ⟨⟨0⟩, 0⟩)⟩

end Subduction
