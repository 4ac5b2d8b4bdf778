/-
**The commit graph of a tree, and the commits that fragments make redundant.**

`CommitDag` is the adjacency structure over the loose commits of a tree; parents outside the tree
are dropped. `simplify` walks from the tips toward the roots and carries along each path the last
commit of positive depth, the head of the *range* the path is in. A commit is dropped when every
range it was met in is covered by a fragment.

* **`mem_simplify`** — a commit stays exactly when some path from a tip meets it in a range that no
  fragment covers, or outside of every range.
-/

import Subduction.Core.Item
import Subduction.Lib.Worklist

set_option linter.unusedSectionVars false

namespace Subduction

open Relation List

/-- A commit graph: the nodes, and the edges from parent to child, the newest first. -/
structure CommitDag where
  nodes : List CommitId
  edges : List (CommitId × CommitId)

namespace CommitDag

variable [IterOrder CommitId]

section

variable (dag : CommitDag)

/-- `CommitDag::add_edge`. -/
def addEdge (source target : CommitId) : CommitDag :=
  { dag with edges := (source, target) :: dag.edges }

/-- The edges of one commit: parents that are not nodes are skipped. -/
def addParents (commit : LooseCommit) : CommitDag :=
  (IterOrder.list commit.parents).foldl (fun dag parent =>
    if parent ∈ dag.nodes then dag.addEdge parent commit.head else dag) dag

/-- `CommitDag::from_commits`, for commits with distinct heads. -/
def fromCommits (commits : List LooseCommit) : CommitDag :=
  commits.foldl addParents ⟨commits.map LooseCommit.head, []⟩

/-- `CommitDag::parents`. -/
def parents (node : CommitId) : List CommitId :=
  (dag.edges.filter fun edge => edge.2 = node).map Prod.fst

/-- `CommitDag::tips`: the nodes without children. -/
def tips : List CommitId :=
  dag.nodes.filter fun node => node ∉ dag.edges.map Prod.fst

/-- The range a commit is in when it is met in the range `range`: a commit of positive depth starts
a range of its own. -/
def rangeAt (strategy : DepthMetric) (id : CommitId) (range : Option CommitId) : Option CommitId :=
  if Depth.isBoundary (strategy id) then some id else range

theorem rangeAt_of_positive {strategy : DepthMetric} {id : CommitId} (positive : 0 < strategy id)
    (range : Option CommitId) : rangeAt strategy id range = some id :=
  if_pos (Depth.isBoundary_iff.mpr positive)

theorem rangeAt_of_flat {strategy : DepthMetric} {id : CommitId} (flat : ¬ 0 < strategy id)
    (range : Option CommitId) : rangeAt strategy id range = range :=
  if_neg fun boundary => flat (Depth.isBoundary_iff.mp boundary)

/-- What the walk of `simplify` collects. -/
structure Ranges where
  commitsToRanges : FinMap CommitId (List CommitId)
  rangelessCommits : Finset CommitId

/-- One step of the walk of `simplify`. -/
def visitRange (_ : Finset (CommitId × Option CommitId)) (ranges : Ranges)
    (item : CommitId × Option CommitId) : Ranges × Except Empty (List (CommitId × Option CommitId)) :=
  let (id, rangeHead) := item
  let next :=
    match rangeHead with
    | some head =>
      { ranges with commitsToRanges :=
          ranges.commitsToRanges.insert id ((ranges.commitsToRanges.get? id).getD [] ++ [head]) }
    | none => { ranges with rangelessCommits := insert id ranges.rangelessCommits }
  (next, .ok ((dag.parents id).map fun parent => (parent, rangeHead)))

/-- The pairs the walk of `simplify` can meet. -/
def pairs : Finset (CommitId × Option CommitId) :=
  dag.nodes.toFinset ×ˢ insert none (dag.nodes.toFinset.image some)

/-- The ranges every commit is met in. -/
def collectRanges (strategy : DepthMetric) : Ranges :=
  let tips := dag.tips.insertionSort (· ≤ ·)
  (Worklist.run (fun item => (item.1, rangeAt strategy item.1 item.2)) dag.visitRange
    (tips.length + ∑ item ∈ dag.pairs, (dag.parents item.1).length)
    (tips.map fun tip => (tip, none)).reverse ∅ ⟨∅, ∅⟩).1.2

/-- `CommitDag::simplify`. -/
def simplify (fragments : List Fragment) (strategy : DepthMetric) : Finset CommitId :=
  let ranges := dag.collectRanges strategy
  let coveredRangeHeads := (fragments.map Fragment.head).toFinset
  let coveredCheckpoints := fragments.toFinset.biUnion Fragment.checkpoints
  ranges.commitsToRanges.keys.filter (fun commit =>
      !((ranges.commitsToRanges.get? commit).getD []).all fun r =>
        decide (r ∈ coveredRangeHeads) || decide (Checkpoint.new r ∈ coveredCheckpoints))
    ∪ ranges.rangelessCommits

/-! ### The graph that is built -/

theorem addParents_nodes (commit : LooseCommit) : (dag.addParents commit).nodes = dag.nodes := by
  unfold addParents
  generalize IterOrder.list commit.parents = listed
  induction listed generalizing dag with
  | nil => rfl
  | cons parent listed ih =>
    rw [foldl_cons]
    by_cases present : parent ∈ dag.nodes
    · rw [if_pos present, ih]
      rfl
    · rw [if_neg present, ih]

theorem mem_addParents_edges (commit : LooseCommit) (edge : CommitId × CommitId) :
    edge ∈ (dag.addParents commit).edges ↔
      edge ∈ dag.edges ∨ edge.1 ∈ commit.parents ∧ edge.1 ∈ dag.nodes ∧ edge.2 = commit.head := by
  have listed : ∀ (parents : List CommitId) (dag : CommitDag),
      edge ∈ (parents.foldl (fun dag parent =>
        if parent ∈ dag.nodes then dag.addEdge parent commit.head else dag) dag).edges ↔
        edge ∈ dag.edges ∨ edge.1 ∈ parents ∧ edge.1 ∈ dag.nodes ∧ edge.2 = commit.head := by
    intro parents
    induction parents with
    | nil =>
      intro dag
      simp
    | cons parent parents ih =>
      intro dag
      rw [foldl_cons, ih]
      by_cases present : parent ∈ dag.nodes
      · rw [if_pos present]
        unfold addEdge
        simp only [mem_cons, Prod.ext_iff]
        constructor
        · rintro ((⟨first, second⟩ | old) | ⟨listed, rest⟩)
          · exact Or.inr ⟨Or.inl first, first ▸ present, second⟩
          · exact Or.inl old
          · exact Or.inr ⟨Or.inr listed, rest⟩
        · rintro (old | ⟨first | listed, inNodes, second⟩)
          · exact Or.inl (Or.inr old)
          · exact Or.inl (Or.inl ⟨first, second⟩)
          · exact Or.inr ⟨listed, inNodes, second⟩
      · rw [if_neg present, mem_cons]
        constructor
        · rintro (old | ⟨listed, rest⟩)
          · exact Or.inl old
          · exact Or.inr ⟨Or.inr listed, rest⟩
        · rintro (old | ⟨first | listed, inNodes, second⟩)
          · exact Or.inl old
          · exact absurd (first ▸ inNodes) present
          · exact Or.inr ⟨listed, inNodes, second⟩
  unfold addParents
  rw [listed, IterOrder.mem_list]

end

theorem foldl_addParents_nodes (commits : List LooseCommit) :
    ∀ dag : CommitDag, (commits.foldl addParents dag).nodes = dag.nodes := by
  induction commits with
  | nil => exact fun _ => rfl
  | cons commit commits ih =>
    intro dag
    rw [foldl_cons, ih, addParents_nodes]

theorem mem_foldl_addParents_edges (commits : List LooseCommit) (edge : CommitId × CommitId) :
    ∀ dag : CommitDag, edge ∈ (commits.foldl addParents dag).edges ↔ edge ∈ dag.edges ∨
      ∃ commit ∈ commits, edge.1 ∈ commit.parents ∧ edge.1 ∈ dag.nodes ∧ edge.2 = commit.head := by
  induction commits with
  | nil =>
    intro dag
    simp
  | cons commit commits ih =>
    intro dag
    rw [foldl_cons, ih, mem_addParents_edges, addParents_nodes, exists_mem_cons_iff, or_assoc]

@[simp] theorem nodes_fromCommits (commits : List LooseCommit) :
    (fromCommits commits).nodes = commits.map LooseCommit.head := foldl_addParents_nodes commits _

theorem mem_edges_fromCommits {commits : List LooseCommit} {edge : CommitId × CommitId} :
    edge ∈ (fromCommits commits).edges ↔ ∃ commit ∈ commits, edge.1 ∈ commit.parents ∧
      edge.1 ∈ commits.map LooseCommit.head ∧ edge.2 = commit.head := by
  unfold fromCommits
  rw [mem_foldl_addParents_edges]
  exact or_iff_right not_mem_nil

theorem mem_parents {dag : CommitDag} {parent node : CommitId} :
    parent ∈ dag.parents node ↔ (parent, node) ∈ dag.edges := by
  unfold parents
  simp

theorem mem_tips {dag : CommitDag} {node : CommitId} :
    node ∈ dag.tips ↔ node ∈ dag.nodes ∧ ∀ child, (node, child) ∉ dag.edges := by
  unfold tips
  simp

/-! ### The walk -/

section

variable (dag : CommitDag) (strategy : DepthMetric)

/-- One step of the walk: to a parent, in the range that the parent is then in. -/
def RangeEdge (p q : CommitId × Option CommitId) : Prop :=
  q.1 ∈ dag.parents p.1 ∧ q.2 = rangeAt strategy q.1 p.2

/-- The walk starts at the tips, outside of every range. -/
def RangeRoot (p : CommitId × Option CommitId) : Prop :=
  p.1 ∈ dag.tips ∧ p.2 = rangeAt strategy p.1 none

/-- **The commit is met in the range** on some path from a tip. -/
def Met (id : CommitId) (range : Option CommitId) : Prop :=
  ∃ root, dag.RangeRoot strategy root ∧ ReflTransGen (dag.RangeEdge strategy) root (id, range)

def Covered (fragments : List Fragment) : Option CommitId → Prop
  | none => False
  | some head => ∃ fragment ∈ fragments, fragment.covers head = true

/-- The invariant of the walk of `simplify`. -/
structure RangeInv (stack : List (CommitId × Option CommitId)) (seen : Finset (CommitId × Option CommitId))
    (ranges : Ranges) : Prop where
  frontier : Worklist.Frontier (dag.RangeEdge strategy) (dag.RangeRoot strategy)
    (stack.map fun item => (item.1, rangeAt strategy item.1 item.2)) seen
  ranged : ∀ id head, head ∈ (ranges.commitsToRanges.get? id).getD [] ↔ (id, some head) ∈ seen
  rangeless : ∀ id, id ∈ ranges.rangelessCommits ↔ (id, none) ∈ seen

end

variable {dag : CommitDag} {strategy : DepthMetric}

theorem rangeAt_mem_pairs {id : CommitId} {range : Option CommitId} (isNode : id ∈ dag.nodes)
    (inPairs : range = none ∨ ∃ head ∈ dag.nodes, range = some head) :
    (id, rangeAt strategy id range) ∈ dag.pairs := by
  unfold pairs rangeAt
  rw [Finset.mem_product, Finset.mem_insert, Finset.mem_image, mem_toFinset]
  refine ⟨isNode, ?_⟩
  by_cases boundary : Depth.isBoundary (strategy id) = true
  · rw [if_pos boundary]
    exact Or.inr ⟨id, mem_toFinset.mpr isNode, rfl⟩
  · rw [if_neg boundary]
    rcases inPairs with rfl | ⟨head, isNode, rfl⟩
    · exact Or.inl rfl
    · exact Or.inr ⟨head, mem_toFinset.mpr isNode, rfl⟩

theorem Met.mem_pairs (closed : ∀ edge ∈ dag.edges, edge.1 ∈ dag.nodes) {id : CommitId}
    {range : Option CommitId} (met : dag.Met strategy id range) : (id, range) ∈ dag.pairs := by
  obtain ⟨⟨tip, start⟩, ⟨isTip, atTip⟩, path⟩ := met
  change start = rangeAt strategy tip none at atTip
  subst atTip
  generalize (id, range) = pair at path
  induction path with
  | refl => exact rangeAt_mem_pairs (mem_tips.mp isTip).1 (Or.inl rfl)
  | @tail p q _ step ih =>
    obtain ⟨parent, range⟩ := q
    obtain ⟨edge, atParent⟩ := step
    change range = rangeAt strategy parent p.2 at atParent
    subst atParent
    apply rangeAt_mem_pairs (closed _ (mem_parents.mp edge))
    have inPairs := (Finset.mem_product.mp ih).2
    rw [Finset.mem_insert, Finset.mem_image] at inPairs
    refine inPairs.imp_right fun ⟨head, isNode, same⟩ => ?_
    exact ⟨head, mem_toFinset.mp isNode, same.symm⟩

theorem RangeInv.step (closed : ∀ edge ∈ dag.edges, edge.1 ∈ dag.nodes)
    {item : CommitId × Option CommitId} {stack : List (CommitId × Option CommitId)}
    {seen : Finset (CommitId × Option CommitId)} {ranges : Ranges}
    (inv : RangeInv dag strategy (item :: stack) seen ranges) {pair : CommitId × Option CommitId}
    (isKey : (item.1, rangeAt strategy item.1 item.2) = pair) :
    Worklist.Visited (RangeInv dag strategy) (fun _ (failure : Empty) => failure.elim)
      (fun item => (dag.parents item.1).length) dag.pairs pair stack (insert pair seen)
      (dag.visitRange (insert pair seen) ranges pair) := by
  have frontier := inv.frontier
  rw [List.map_cons, isKey] at frontier
  have inPairs : pair ∈ dag.pairs := by
    obtain ⟨root, isRoot, path⟩ := frontier.reached pair (Or.inl List.mem_cons_self)
    exact Met.mem_pairs closed ⟨root, isRoot, path⟩
  have next : Worklist.Frontier (dag.RangeEdge strategy) (dag.RangeRoot strategy)
      ((((dag.parents pair.1).map fun parent => (parent, pair.2)).reverse ++ stack).map
        fun item => (item.1, rangeAt strategy item.1 item.2)) (insert pair seen) := by
    rw [List.map_append, List.map_reverse, List.map_map]
    refine frontier.step ?_ ?_
    · intro q pushed
      obtain ⟨parent, isParent, rfl⟩ := List.mem_map.mp pushed
      exact ⟨isParent, rfl⟩
    · rintro ⟨parent, range⟩ ⟨isParent, atParent⟩
      change range = rangeAt strategy parent pair.2 at atParent
      subst atParent
      exact Or.inl (List.mem_map.mpr ⟨parent, isParent, rfl⟩)
  obtain ⟨id, range⟩ := pair
  unfold visitRange
  refine ⟨⟨next, fun other head => ?_, fun other => ?_⟩, by rw [List.length_map],
    fun outside => absurd inPairs outside⟩
  · cases range with
    | none =>
      rw [inv.ranged, Finset.mem_insert]
      simp
    | some range =>
      simp only [FinMap.get?_insert, Finset.mem_insert, Prod.mk.injEq, Option.some.injEq]
      by_cases same : other = id
      · rw [if_pos same, Option.getD_some, List.mem_append, List.mem_singleton, inv.ranged, same]
        simp [or_comm]
      · rw [if_neg same, inv.ranged]
        simp [same]
  · cases range with
    | none =>
      simp only [Finset.mem_insert, inv.rangeless, Prod.mk.injEq, and_true]
    | some range =>
      rw [inv.rangeless, Finset.mem_insert]
      simp

theorem collectRanges_spec (strategy : DepthMetric)
    (closed : ∀ edge ∈ dag.edges, edge.1 ∈ dag.nodes) :
    (∀ id head, head ∈ ((dag.collectRanges strategy).commitsToRanges.get? id).getD [] ↔
      dag.Met strategy id (some head)) ∧
    ∀ id, id ∈ (dag.collectRanges strategy).rangelessCommits ↔ dag.Met strategy id none := by
  have tipsSorted : ∀ tip, tip ∈ dag.tips.insertionSort (· ≤ ·) ↔ tip ∈ dag.tips :=
    fun tip => (perm_insertionSort (· ≤ ·) dag.tips).mem_iff
  have roots : ∀ p, dag.RangeRoot strategy p ↔ p ∈ ((dag.tips.insertionSort (· ≤ ·)).map fun tip =>
        ((tip, none) : CommitId × Option CommitId)).reverse.map
          fun item => (item.1, rangeAt strategy item.1 item.2) := by
    rintro ⟨tip, range⟩
    simp only [mem_map, mem_reverse, tipsSorted, RangeRoot]
    constructor
    · rintro ⟨isTip, rfl⟩
      exact ⟨(tip, none), ⟨tip, isTip, rfl⟩, rfl⟩
    · rintro ⟨_, ⟨other, isTip, rfl⟩, same⟩
      obtain ⟨rfl, rfl⟩ := Prod.mk.inj same
      exact ⟨isTip, rfl⟩
  have outcome := Worklist.run_rule (fun item => (item.1, rangeAt strategy item.1 item.2))
    dag.visitRange (RangeInv dag strategy) (fun _ failure => failure.elim)
    (fun item => (dag.parents item.1).length) dag.pairs
    (fun _ _ _ _ inv member => { inv with frontier := inv.frontier.skip member })
    (fun _ _ _ _ inv _ => inv.step closed rfl)
    ((dag.tips.insertionSort (· ≤ ·)).length + ∑ item ∈ dag.pairs, (dag.parents item.1).length)
    ((dag.tips.insertionSort (· ≤ ·)).map fun tip => (tip, none)).reverse ∅ ⟨∅, ∅⟩
    ⟨Worklist.Frontier.start _ roots, by simp, by simp⟩
    (by rw [length_reverse, length_map, Worklist.budget, Finset.sdiff_empty])
  unfold collectRanges
  dsimp only
  generalize Worklist.run _ dag.visitRange _ _ _ _ = result at outcome ⊢
  obtain ⟨⟨seen, ranges⟩, failure⟩ := result
  cases failure with
  | some failure => exact failure.elim
  | none =>
    obtain ⟨frontier, ranged, rangeless⟩ := outcome
    exact ⟨fun id head => (ranged id head).trans frontier.mem_iff,
      fun id => (rangeless id).trans frontier.mem_iff⟩

theorem mem_simplify (closed : ∀ edge ∈ dag.edges, edge.1 ∈ dag.nodes) (fragments : List Fragment)
    (id : CommitId) :
    id ∈ dag.simplify fragments strategy ↔
      ∃ range, dag.Met strategy id range ∧ ¬ Covered fragments range := by
  obtain ⟨ranged, rangeless⟩ := collectRanges_spec strategy closed
  have covered : ∀ r, (decide (r ∈ (fragments.map Fragment.head).toFinset) ||
      decide (Checkpoint.new r ∈ fragments.toFinset.biUnion Fragment.checkpoints)) = true ↔
      Covered fragments (some r) := by
    intro r
    simp only [Bool.or_eq_true, decide_eq_true_eq, mem_toFinset, mem_map,
      Finset.mem_biUnion, Covered, Fragment.covers_iff]
    grind
  unfold simplify
  simp only [Finset.mem_union, Finset.mem_filter, Bool.not_eq_true', rangeless]
  constructor
  · rintro (⟨-, uncovered⟩ | met)
    · obtain ⟨r, listed, clear⟩ := all_eq_false.mp uncovered
      exact ⟨some r, (ranged id r).mp listed, fun isCovered => clear ((covered r).mpr isCovered)⟩
    · exact ⟨none, met, fun impossible => impossible⟩
  · rintro ⟨range, met, clear⟩
    cases range with
    | none => exact Or.inr met
    | some r =>
      have listed := (ranged id r).mpr met
      refine Or.inl ⟨?_, all_eq_false.mpr ⟨r, listed, fun all => clear ((covered r).mp all)⟩⟩
      by_contra absent
      rw [FinMap.get?_eq_none.mpr absent] at listed
      exact absurd listed not_mem_nil

end CommitDag

end Subduction
