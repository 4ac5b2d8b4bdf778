/-
**Commit graphs, the trees built from them, and what such a tree holds.**

* **`Honest.minimize`**, **`Honest.holds_minimize`** — minimization keeps a tree honest and loses no
  payload.
-/

import Subduction.Core.Build
import Subduction.Core.Minimize

set_option linter.unusedSectionVars false

namespace Subduction

open Relation Strata Sedimentree

variable {Node : Type} [Parents Node] [IterOrder CommitId]

/-! ### Commit graphs -/

def parentEdge (nodes : FinMap CommitId Node) (a b : CommitId) : Prop :=
  ∃ node, nodes.get? a = some node ∧ b ∈ Parents.parents node

/-- **A finite acyclic commit graph** whose parents are all present. -/
structure CommitGraph (Node : Type) [Parents Node] where
  nodes : FinMap CommitId Node
  parents_mem : ∀ {a b : CommitId}, parentEdge nodes a b → b ∈ nodes.keys
  acyclic : ∀ a, ¬ TransGen (parentEdge nodes) a a

namespace CommitGraph

def ids (graph : CommitGraph Node) : Finset CommitId := graph.nodes.keys

def edge (graph : CommitGraph Node) : CommitId → CommitId → Prop := parentEdge graph.nodes

theorem edge_source {graph : CommitGraph Node} {a b : CommitId} (step : graph.edge a b) :
    a ∈ graph.ids := FinMap.mem_keys_of_get? step.choose_spec.1

section

variable (graph : CommitGraph Node)

theorem founded : WellFounded (Function.swap graph.edge) :=
  founded_of_acyclic graph.ids (fun _ _ step => edge_source step) graph.acyclic

/-- An ancestor-closed set of commits of the graph. -/
def AncestorClosed (part : Finset CommitId) : Prop :=
  part ⊆ graph.ids ∧ ∀ a ∈ part, ∀ b, graph.edge a b → b ∈ part

theorem ancestorClosed_ids : graph.AncestorClosed graph.ids :=
  ⟨Finset.Subset.refl _, fun _ _ _ step => graph.parents_mem step⟩

/-- A graph in which every parent is smaller than its child. -/
def ofDescending (nodes : FinMap CommitId Node)
    (descending : ∀ a ∈ nodes.keys, ∀ node ∈ nodes.get? a, ∀ b ∈ Parents.parents node,
      b ∈ nodes.keys ∧ b < a) : CommitGraph Node where
  nodes := nodes
  parents_mem := by
    intro a b step
    obtain ⟨node, found, isParent⟩ := step
    exact (descending a (FinMap.mem_keys_of_get? found) node found b isParent).1
  acyclic a cycle := by
    have smaller : ∀ b, TransGen (parentEdge nodes) a b → b < a := by
      intro b path
      have step : ∀ c d, parentEdge nodes c d → d < c := fun c d ⟨node, found, isParent⟩ =>
        (descending c (FinMap.mem_keys_of_get? found) node found d isParent).2
      induction path with
      | single edge => exact step a _ edge
      | tail _ edge ih => exact (step _ _ edge).trans ih
    exact lt_irrefl a (smaller a cycle)

def store (part : Finset CommitId) : CommitStore Node Empty where
  lookup id := .ok (if id ∈ part then graph.nodes.get? id else none)
  ids := graph.ids
  mem_ids := by
    intro id node found
    by_cases inPart : id ∈ part
    · rw [if_pos inPart] at found
      exact FinMap.mem_keys_of_get? (Except.ok.inj found)
    · rw [if_neg inPart] at found
      exact absurd (Except.ok.inj found) (by simp)

theorem serves {part : Finset CommitId}
    (closed : graph.AncestorClosed part) : (graph.store part).Serves graph.edge (· ∈ part) where
  found a inPart := by
    obtain ⟨node, found⟩ := FinMap.mem_keys.mp (closed.1 inPart)
    refine ⟨node, ?_, fun b => ⟨fun isParent => ⟨node, found, isParent⟩, fun step => ?_⟩⟩
    · exact congrArg Except.ok ((if_pos inPart).trans found)
    · obtain ⟨other, foundOther, isParent⟩ := step
      rw [Option.some.inj (found.symm.trans foundOther)]
      exact isParent
  missing a outside := congrArg Except.ok (if_neg outside)
  closed a b inPart step := closed.2 a inPart b step

def looseCommits (part : Finset CommitId) (sedimentreeId : SedimentreeId)
    (commitMeta : CommitId → BlobMeta) : List LooseCommit :=
  (IterOrder.list part).filterMap fun id => (graph.nodes.get? id).map fun node =>
    ⟨sedimentreeId, id, Parents.parents node, commitMeta id⟩

end

def stateFragments (known : FinMap CommitId (FragmentState Node)) (sedimentreeId : SedimentreeId)
    (fragmentMeta : CommitId → BlobMeta) : List Fragment :=
  known.values.map fun state => state.toFragment sedimentreeId (fragmentMeta state.headId)

/-- **The complete tree of a part**: all its loose commits, and a fragment for every state. -/
def tree [Blake3] [Bijou64] (graph : CommitGraph Node) (part : Finset CommitId)
    (known : FinMap CommitId (FragmentState Node)) (sedimentreeId : SedimentreeId)
    (commitMeta fragmentMeta : CommitId → BlobMeta) : Sedimentree :=
  Sedimentree.new (stateFragments known sedimentreeId fragmentMeta)
    (graph.looseCommits part sedimentreeId commitMeta)

theorem mem_looseCommits {graph : CommitGraph Node} {part : Finset CommitId}
    {sedimentreeId : SedimentreeId} {commitMeta : CommitId → BlobMeta} {commit : LooseCommit} :
    commit ∈ graph.looseCommits part sedimentreeId commitMeta ↔
      commit.head ∈ part ∧ ∃ node, graph.nodes.get? commit.head = some node ∧
        commit = ⟨sedimentreeId, commit.head, Parents.parents node, commitMeta commit.head⟩ := by
  unfold looseCommits
  rw [List.mem_filterMap]
  refine ⟨fun ⟨id, listed, built⟩ => ?_, fun ⟨inPart, node, found, isCommit⟩ => ?_⟩
  · obtain ⟨node, found, rfl⟩ := Option.map_eq_some_iff.mp built
    exact ⟨IterOrder.mem_list.mp listed, node, found, rfl⟩
  · exact ⟨commit.head, IterOrder.mem_list.mpr inPart, by rw [found, Option.map_some, ← isCommit]⟩

theorem mem_stateFragments {known : FinMap CommitId (FragmentState Node)}
    {sedimentreeId : SedimentreeId} {fragmentMeta : CommitId → BlobMeta} {fragment : Fragment} :
    fragment ∈ stateFragments known sedimentreeId fragmentMeta ↔
      ∃ key state, known.get? key = some state ∧
        state.toFragment sedimentreeId (fragmentMeta state.headId) = fragment := by
  unfold stateFragments
  rw [List.mem_map]
  refine ⟨fun ⟨state, listed, built⟩ => ?_, fun ⟨key, state, found, built⟩ => ?_⟩
  · obtain ⟨key, found⟩ := FinMap.mem_values.mp listed
    exact ⟨key, state, found, built⟩
  · exact ⟨state, FinMap.mem_values.mpr ⟨key, found⟩, built⟩

end CommitGraph

/-! ### Honest trees -/

/-- The fragment of a stratum: boundary and checkpoints are those of its head. -/
structure IsStratum (graph : CommitGraph Node) (metric : DepthMetric) (head : CommitId)
    (fragment : Fragment) : Prop where
  mem : head ∈ graph.ids
  positive : 0 < metric head
  boundary : ∀ b, b ∈ fragment.boundary ↔ Rim graph.edge metric head b
  checkpoints : ∀ point, point ∈ fragment.checkpoints ↔
    ∃ x, Point graph.edge metric head x ∧ Checkpoint.new x = point

/-- **An honest tree** over a commit graph. -/
structure Honest (graph : CommitGraph Node) (metric : DepthMetric) (tree : Sedimentree) : Prop where
  mem : ∀ {id}, id ∈ tree.commitKeys → id ∈ graph.ids
  parents : ∀ {id commit}, tree.commit? id = some commit → ∀ b, b ∈ commit.parents ↔ graph.edge id b
  stratum : ∀ {id fragment}, tree.fragment? id = some fragment → IsStratum graph metric id fragment
  closed : Closed graph.edge metric (· ∈ tree.fragmentKeys)

/-- **The payload of the commit is in the tree**, loose or owned by the head of a fragment. -/
def HoldsPayload (graph : CommitGraph Node) (metric : DepthMetric) (tree : Sedimentree)
    (x : CommitId) : Prop :=
  x ∈ tree.commitKeys ∨ ∃ h ∈ tree.fragmentKeys, Owned graph.edge metric h x

variable {graph : CommitGraph Node} {metric : DepthMetric} {tree : Sedimentree}

theorem CommitGraph.reach_mem {a b : CommitId} (member : a ∈ graph.ids)
    (path : ReflTransGen graph.edge a b) : b ∈ graph.ids := by
  induction path with
  | refl => exact member
  | tail _ step _ => exact graph.parents_mem step

theorem isStratum_toFragment {head : CommitId} {state : FragmentState Node}
    (canonical : CommitStore.Canonical graph.edge metric head state) (mem : head ∈ graph.ids)
    (positive : 0 < metric head) (sedimentreeId : SedimentreeId) (blobMeta : BlobMeta) :
    IsStratum graph metric head (state.toFragment sedimentreeId blobMeta) where
  mem := mem
  positive := positive
  boundary := canonical.boundary
  checkpoints point := by
    unfold FragmentState.toFragment Fragment.new
    rw [Finset.mem_image]
    exact exists_congr fun x => and_congr_left fun _ => canonical.checkpoints x

namespace Honest

theorem link_edge (honest : Honest graph metric tree) {a b : CommitId} (link : tree.Link a b) :
    graph.edge a b := by
  obtain ⟨commit, stored, isParent, -⟩ := link
  exact (honest.parents stored b).mp isParent

theorem acyclic (honest : Honest graph metric tree) (a : CommitId) : ¬ TransGen tree.Link a a :=
  fun cycle => graph.acyclic a (TransGen.mono (fun _ _ link => honest.link_edge link) _ _ cycle)

section Checkpoints

variable (separated : Set.InjOn Checkpoint.new (graph.ids : Set CommitId))
include separated

variable (honest : Honest graph metric tree)

include honest

section

variable {h x : CommitId} {fragment : Fragment} (stored : tree.fragment? h = some fragment) (mem : x ∈ graph.ids)

include stored mem

theorem point_of_checkpoint :
    Checkpoint.new x ∈ fragment.checkpoints ↔ Point graph.edge metric h x := by
  have stratum := honest.stratum stored
  rw [stratum.checkpoints]
  refine ⟨fun ⟨y, isPoint, same⟩ => ?_, fun isPoint => ⟨x, isPoint, rfl⟩⟩
  have memY : y ∈ graph.ids := CommitGraph.reach_mem stratum.mem isPoint.1.1.path
  rw [← separated memY mem same]
  exact isPoint

theorem span_of_covers (covers : fragment.covers x = true) : Span graph.edge metric h x := by
  rcases Fragment.covers_iff.mp covers with isHead | isCheckpoint
  · rw [← isHead, head_of_fragment? stored]
    exact .refl
  · exact ((honest.point_of_checkpoint separated stored mem).mp isCheckpoint).1.1

end

theorem span_of_supports {g a : CommitId}
    (deeper : metric a < metric g) (supports : tree.Supports metric g a) :
    Span graph.edge metric g a := by
  obtain ⟨top, fragment, storedG, storedA, supports⟩ := supports
  have headG := head_of_fragment? storedG
  have headA := head_of_fragment? storedA
  have deeper' : fragment.depth metric < top.depth metric := by
    unfold Fragment.depth
    rw [headA, headG]
    exact deeper
  have block := ((Fragment.supports_iff_of_depth_lt deeper').mp supports).1
  rw [Fragment.supportsBlock_iff, headA, headG] at block
  rcases block with same | isCheckpoint | inBoundary
  · rw [same] at deeper
    exact absurd deeper (lt_irrefl _)
  · exact ((honest.point_of_checkpoint separated storedG (honest.stratum storedA).mem).mp
      isCheckpoint).1.1
  · have rim := ((honest.stratum storedG).boundary a).mp inBoundary
    exact absurd rim.choose_spec.2.2 (not_le.mpr deeper)

theorem minimize : Honest graph metric (tree.minimizeInPlace metric) where
  mem member := by
    obtain ⟨commit, stored⟩ := mem_commitKeys.mp member
    exact honest.mem (mem_commitKeys.mpr
      ⟨commit, (Sedimentree.commit?_minimizeInPlace.mp stored).1⟩)
  parents stored := honest.parents (Sedimentree.commit?_minimizeInPlace.mp stored).1
  stratum stored := honest.stratum (Sedimentree.fragment?_minimizeInPlace.mp stored).1
  closed := honest.closed.of_kernel (fun _ member => Finset.le_sup member)
    (tree.minimize_kernel metric)
    (fun _ _ _ _ deeper supports => honest.span_of_supports separated deeper supports)

theorem span_of_dropped {x : CommitId}
    (member : x ∈ tree.commitKeys) (dropped : x ∉ (tree.minimizeInPlace metric).commitKeys) :
    ∃ h ∈ (tree.minimizeInPlace metric).fragmentKeys, Span graph.edge metric h x := by
  obtain ⟨head, ⟨h, fragment, stored, covers⟩, positive, path⟩ :=
    exists_covered_range honest.acyclic member dropped
  have flat : Span graph.edge metric head x := Span.of_flat positive
    (ReflTransGen.mono (fun _ _ step => ⟨honest.link_edge step.1, step.2⟩) _ _ path)
  have headMem : head ∈ graph.ids := by
    rcases ReflTransGen.cases_head path with same | ⟨_, step, -⟩
    · rw [same]
      exact honest.mem member
    · exact CommitGraph.edge_source (honest.link_edge step.1)
  have spans := (honest.minimize separated).span_of_covers separated stored headMem covers
  refine ⟨h, mem_fragmentKeys.mpr ⟨fragment, stored⟩, spans.trans ?_ flat⟩
  rcases spans.eq_or_depth_lt with same | shallow
  · rw [same]
  · exact shallow.le

theorem holds_minimize {x : CommitId} (holds : HoldsPayload graph metric tree x) :
    HoldsPayload graph metric (tree.minimizeInPlace metric) x := by
  rcases holds with member | ⟨h, isHead, owns⟩
  · by_cases stays : x ∈ (tree.minimizeInPlace metric).commitKeys
    · exact Or.inl stays
    · obtain ⟨h, isHead, spans⟩ := honest.span_of_dropped separated member stays
      obtain ⟨g, isHead, -, owns⟩ := (honest.minimize separated).closed h isHead x spans
      exact Or.inr ⟨g, isHead, owns⟩
  · obtain ⟨g, stays, -, owns⟩ := honest.closed.kernel (fun _ member => Finset.le_sup member)
      (tree.minimize_kernel metric)
      (fun _ _ _ _ deeper supports => honest.span_of_supports separated deeper supports) isHead owns
    exact Or.inr ⟨g, stays, owns⟩

end Checkpoints

end Honest

end Subduction
