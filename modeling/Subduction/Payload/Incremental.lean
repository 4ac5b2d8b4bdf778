/-
**Building fragments while the graph grows.**

A document grows commit by commit, and the builder is called again on the map it left behind. Every
call is a `Stage`: the commits present then and the heads it is given.

* **`GrownBuild.unique`** — it is determined by the heads that were given.
* **`buildChain_eq_once`**.
-/

import Subduction.Payload.Complete

set_option linter.unusedSectionVars false

namespace Subduction

open Relation Strata List

/-- **A call of the builder on a growing graph**: the commits present, and the heads it is given. -/
structure Stage where
  part : Finset CommitId
  headIds : List CommitId

section Chain

variable {Node : Type} [Parents Node] [IterOrder CommitId]

namespace CommitGraph

def buildStage (graph : CommitGraph Node) (metric : DepthMetric)
    (known : FinMap CommitId (FragmentState Node)) (stage : Stage) :
    Except (FragmentError Empty) (FinMap CommitId (FragmentState Node)) :=
  match (graph.store stage.part).buildFragmentStore stage.headIds known metric with
  | (next, .ok _) => .ok next
  | (_, .error failure) => .error failure

/-- **The calls one after the other**, on one map that starts empty. -/
def buildChain (graph : CommitGraph Node) (metric : DepthMetric) (stages : List Stage) :
    Except (FragmentError Empty) (FinMap CommitId (FragmentState Node)) :=
  stages.foldlM (graph.buildStage metric) ∅

/-- The heads that the builder reaches on the stage. -/
def Reached (graph : CommitGraph Node) (metric : DepthMetric) (stage : Stage) (a : CommitId) : Prop :=
  (a ∈ stage.part ∧ 0 < metric a) ∧ ∃ root ∈ stage.headIds,
    ReflTransGen (CommitStore.BuildEdge graph.edge (· ∈ stage.part) metric) root a

variable {graph : CommitGraph Node} {metric : DepthMetric} {stage : Stage} {whole : Finset CommitId}

/-- **What is reached on a stage** is reached in the same way on every larger graph, from the heads
that were there already. -/
theorem reached_iff (closed : graph.AncestorClosed stage.part) (inside : stage.part ⊆ whole)
    (a : CommitId) :
    graph.Reached metric stage a ↔ 0 < metric a ∧ ∃ root ∈ stage.headIds, root ∈ stage.part ∧
      ReflTransGen (CommitStore.BuildEdge graph.edge (· ∈ whole) metric) root a := by
  have serves := graph.serves closed
  constructor
  · rintro ⟨⟨inPart, positive⟩, root, isRoot, path⟩
    refine ⟨positive, root, isRoot, ?_, ReflTransGen.mono ?_ _ _ path⟩
    · rcases ReflTransGen.cases_head path with same | ⟨_, step, -⟩
      · exact same ▸ inPart
      · exact step.1
    · exact fun b c step => ⟨inside step.1, step.2⟩
  · rintro ⟨positive, root, isRoot, inPart, path⟩
    have stays : a ∈ stage.part ∧
        ReflTransGen (CommitStore.BuildEdge graph.edge (· ∈ stage.part) metric) root a := by
      clear positive
      induction path with
      | refl => exact ⟨inPart, .refl⟩
      | @tail b c _ step ih =>
        refine ⟨?_, ih.2.tail ⟨ih.1, step.2⟩⟩
        have along := step.2
        by_cases positive : 0 < metric b
        · rw [if_pos positive] at along
          exact serves.reach ih.1 along.path.to_reflTransGen
        · rw [if_neg positive] at along
          exact closed.2 b ih.1 c along
    exact ⟨⟨stays.1, positive⟩, root, isRoot, stays.2⟩

theorem nodes_of_lookup {part : Finset CommitId} {b : CommitId} {node : Node}
    (found : (graph.store part).lookup b = .ok (some node)) : graph.nodes.get? b = some node := by
  have looked : (if b ∈ part then graph.nodes.get? b else none) = some node := Except.ok.inj found
  by_cases inPart : b ∈ part
  · rw [if_pos inPart] at looked
    exact looked
  · rw [if_neg inPart] at looked
    exact absurd looked (by simp)

end CommitGraph

/-- **The map after some stages**: canonical states of the heads that one of them reached, with the
nodes of the graph at the boundaries. -/
structure GrownBuild (graph : CommitGraph Node) (metric : DepthMetric) (stages : List Stage)
    (known : FinMap CommitId (FragmentState Node)) : Prop where
  keys : ∀ a, a ∈ known.keys ↔ ∃ stage ∈ stages, graph.Reached metric stage a
  rim : ∀ a ∈ known.keys, ∀ b, Rim graph.edge metric a b → b ∈ known.keys
  canonical : ∀ a state, known.get? a = some state → CommitStore.Canonical graph.edge metric a state
  nodes : ∀ a state, known.get? a = some state →
    ∀ b node, state.boundary.get? b = some node → graph.nodes.get? b = some node

namespace GrownBuild

variable {graph : CommitGraph Node} {metric : DepthMetric} {stages others : List Stage}
  {known other : FinMap CommitId (FragmentState Node)}

theorem start (graph : CommitGraph Node) (metric : DepthMetric) :
    GrownBuild graph metric [] (∅ : FinMap CommitId (FragmentState Node)) :=
  ⟨by simp, by simp, by simp, by simp⟩

/-- **One more call** on a graph with everything that was there before. -/
theorem stage (build : GrownBuild graph metric stages known) {next : Stage}
    (closed : graph.AncestorClosed next.part) (grows : ∀ stage ∈ stages, stage.part ⊆ next.part) :
    ∃ extended fresh,
      (graph.store next.part).buildFragmentStore next.headIds known metric = (extended, .ok fresh) ∧
      GrownBuild graph metric (stages ++ [next]) extended := by
  have inside : ∀ a ∈ known.keys, a ∈ next.part ∧ 0 < metric a := by
    intro a isKey
    obtain ⟨stage, listed, reached⟩ := (build.keys a).mp isKey
    exact ⟨grows stage listed reached.1.1, reached.1.2⟩
  obtain ⟨extended, fresh, runs, keys, rim, kept, states⟩ :=
    CommitStore.buildFragmentStore_extends (graph.serves closed) graph.founded next.headIds known
      metric inside build.rim build.canonical
  refine ⟨extended, fresh, runs, fun a => ?_, rim, fun a state found => (states a state found).1,
    fun a state found b node stored => ?_⟩
  · rw [keys, build.keys]
    simp only [mem_append, mem_singleton, or_and_right, exists_or, exists_eq_left]
    exact Iff.rfl
  · by_cases before : a ∈ known.keys
    · obtain ⟨first, foundFirst⟩ := FinMap.mem_keys.mp before
      obtain rfl := Option.some.inj ((kept a first foundFirst).symm.trans found)
      exact build.nodes a first foundFirst b node stored
    · exact CommitGraph.nodes_of_lookup ((states a state found).2 before b node stored)

theorem chain (closed : ∀ stage ∈ stages, graph.AncestorClosed stage.part)
    (grows : stages.Pairwise fun earlier later => earlier.part ⊆ later.part) :
    ∃ known, graph.buildChain metric stages = .ok known ∧ GrownBuild graph metric stages known := by
  induction stages using List.reverseRecOn with
  | nil => exact ⟨∅, rfl, start graph metric⟩
  | append_singleton stages next ih =>
    rw [pairwise_append] at grows
    obtain ⟨known, runs, build⟩ := ih
      (fun stage listed => closed stage (mem_append_left _ listed)) grows.1
    obtain ⟨extended, fresh, runsNext, extends_⟩ := build.stage
      (closed next (mem_append_right _ mem_cons_self))
      (fun stage listed => grows.2.2 stage listed next mem_cons_self)
    refine ⟨extended, ?_, extends_⟩
    unfold CommitGraph.buildChain at runs ⊢
    rw [foldlM_append, runs]
    show (graph.buildStage metric known next >>= pure) = _
    unfold CommitGraph.buildStage
    rw [runsNext]
    rfl

variable (build : GrownBuild graph metric stages known) (again : GrownBuild graph metric others other)

include build again

theorem state_eq {a : CommitId} {first second : FragmentState Node}
    (found : known.get? a = some first) (foundAgain : other.get? a = some second) :
    first = second := by
  have one := build.canonical a first found
  have two := again.canonical a second foundAgain
  refine FragmentState.eq_of_fields (one.headId.trans two.headId.symm) (fun b => ?_)
    (fun b node other stored storedOther => ?_) (fun x => ?_) fun x => ?_
  · rw [one.boundary, two.boundary]
  · have inGraph := build.nodes a first found b node stored
    exact Option.some.inj (inGraph.symm.trans (again.nodes a second foundAgain b other storedOther))
  · rw [one.members, two.members]
  · rw [one.checkpoints, two.checkpoints]

theorem get?_of_keys (fewer : other.keys ⊆ known.keys) {a : CommitId}
    {state : FragmentState Node} (found : other.get? a = some state) : known.get? a = some state := by
  obtain ⟨same, foundSame⟩ := FinMap.mem_keys.mp (fewer (FinMap.mem_keys_of_get? found))
  rw [foundSame, build.state_eq again foundSame found]

theorem unique (keys : known.keys = other.keys) : known = other := by
  ext a : 1
  cases found : other.get? a with
  | some state => exact build.get?_of_keys again keys.ge found
  | none =>
    rw [FinMap.get?_eq_none, keys]
    exact FinMap.get?_eq_none.mp found

end GrownBuild

/-- **Incremental building is building once**, with the heads of all the calls. On a growing graph
the calls one after the other succeed and leave the map that one call leaves on the last graph, when
it is given the heads that were there in their call, in any order. What one call builds from fewer
heads, such as those of the last call alone, is a part of it. -/
theorem buildChain_eq_once (graph : CommitGraph Node) (metric : DepthMetric) (stages : List Stage)
    (last : Stage) (closed : ∀ stage ∈ stages ++ [last], graph.AncestorClosed stage.part)
    (grows : (stages ++ [last]).Pairwise fun earlier later => earlier.part ⊆ later.part) :
    ∃ known, graph.buildChain metric (stages ++ [last]) = .ok known ∧ (∀ headIds : List CommitId,
        (∀ h ∈ last.part, h ∈ headIds ↔ ∃ stage ∈ stages ++ [last], h ∈ stage.headIds ∧ h ∈ stage.part) →
        ∃ fresh, (graph.store last.part).buildFragmentStore headIds ∅ metric = (known, .ok fresh)) ∧
      ∀ headIds : List CommitId,
        (∀ h ∈ last.part, h ∈ headIds → ∃ stage ∈ stages ++ [last], h ∈ stage.headIds ∧ h ∈ stage.part) →
        ∃ once fresh, (graph.store last.part).buildFragmentStore headIds ∅ metric = (once, .ok fresh) ∧
          ∀ a state, once.get? a = some state → known.get? a = some state := by
  obtain ⟨known, runs, build⟩ := @GrownBuild.chain Node _ _ graph metric (stages ++ [last]) closed grows
  have closedLast := closed last (List.mem_append_right _ List.mem_cons_self)
  have inLast : ∀ stage ∈ stages ++ [last], stage.part ⊆ last.part := by
    intro stage listed
    rcases List.mem_append.mp listed with earlier | isLast
    · exact (List.pairwise_append.mp grows).2.2 stage earlier last List.mem_cons_self
    · rw [List.mem_singleton.mp isLast]
  -- the keys of the chain, read on the last graph
  have keys : ∀ a, a ∈ known.keys ↔ 0 < metric a ∧ ∃ root,
      (∃ stage ∈ stages ++ [last], root ∈ stage.headIds ∧ root ∈ stage.part) ∧
      ReflTransGen (CommitStore.BuildEdge graph.edge (· ∈ last.part) metric) root a := by
    intro a
    rw [build.keys]
    constructor
    · rintro ⟨stage, listed, reached⟩
      obtain ⟨positive, root, isRoot, inPart, path⟩ :=
        (CommitGraph.reached_iff (closed stage listed) (inLast stage listed) a).mp reached
      exact ⟨positive, root, ⟨stage, listed, isRoot, inPart⟩, path⟩
    · rintro ⟨positive, root, ⟨stage, listed, isRoot, inPart⟩, path⟩
      exact ⟨stage, listed, (CommitGraph.reached_iff (closed stage listed) (inLast stage listed) a).mpr
        ⟨positive, root, isRoot, inPart, path⟩⟩
  -- one call from nothing, and its keys
  have once : ∀ headIds : List CommitId, ∃ once fresh,
      (graph.store last.part).buildFragmentStore headIds ∅ metric = (once, .ok fresh) ∧
      GrownBuild graph metric [⟨last.part, headIds⟩] once ∧
      ∀ a, a ∈ once.keys ↔ 0 < metric a ∧ ∃ root, (root ∈ headIds ∧ root ∈ last.part) ∧
        ReflTransGen (CommitStore.BuildEdge graph.edge (· ∈ last.part) metric) root a := by
    intro headIds
    obtain ⟨once, fresh, runsOnce, buildOnce⟩ :=
      @GrownBuild.stage Node _ _ graph metric [] ∅ (.start graph metric) ⟨last.part, headIds⟩ closedLast
        (by simp)
    refine ⟨once, fresh, runsOnce, buildOnce, fun a => ?_⟩
    have reached := @CommitGraph.reached_iff Node _ _ graph metric ⟨last.part, headIds⟩ last.part
      closedLast (Finset.Subset.refl _) a
    rw [buildOnce.keys, List.nil_append]
    simp only [List.mem_singleton, exists_eq_left, reached, and_assoc]
  refine ⟨known, runs, fun headIds same => ?_, fun headIds fewer => ?_⟩
  · obtain ⟨map, fresh, runsOnce, buildOnce, keysOnce⟩ := once headIds
    refine ⟨fresh, ?_⟩
    rw [runsOnce, build.unique buildOnce]
    ext a
    rw [keys, keysOnce]
    refine and_congr_right fun _ => exists_congr fun root => and_congr_left fun _ => ?_
    constructor
    · rintro ⟨stage, listed, isRoot, inPart⟩
      exact ⟨(same root (inLast stage listed inPart)).mpr ⟨stage, listed, isRoot, inPart⟩,
        inLast stage listed inPart⟩
    · exact fun isRoot => (same root isRoot.2).mp isRoot.1
  · obtain ⟨map, fresh, runsOnce, buildOnce, keysOnce⟩ := once headIds
    refine ⟨map, fresh, runsOnce, fun a state => build.get?_of_keys buildOnce fun b isKey => ?_⟩
    obtain ⟨positive, root, isRoot, path⟩ := (keysOnce b).mp isKey
    exact (keys b).mpr ⟨positive, root, fewer root isRoot.2 isRoot.1, path⟩

end Chain

/-! ### A head that a single call does not build -/

def stackedMetric : DepthMetric :=
  fun id => if id = .numbered 1 then 1 else if id = .numbered 2 then 2 else 0

def rootStage : Stage := ⟨{.numbered 1}, [.numbered 1]⟩

def childStage : Stage := ⟨{.numbered 1, .numbered 2}, [.numbered 2]⟩

theorem closed_of_stage : ∀ stage ∈ [rootStage, childStage], diamond.AncestorClosed stage.part := by
  have parents : ∀ stage ∈ [rootStage, childStage], stage.part ⊆ diamond.ids ∧
      ∀ a ∈ stage.part, ∀ node ∈ diamond.nodes.get? a, ∀ b ∈ node, b ∈ stage.part := by
    decide +kernel
  intro stage listed
  refine ⟨(parents stage listed).1, ?_⟩
  rintro a inPart b ⟨node, found, isParent⟩
  exact (parents stage listed).2 a inPart node found b isParent

theorem grows_of_stage :
    [rootStage, childStage].Pairwise fun earlier later => earlier.part ⊆ later.part := by
  decide +kernel

attribute [local instance] IterOrder.ascending

/-- **A head of an earlier call stays**: the commit 1 is a head when it is built alone. Once its child
of greater depth is there, a single call from that child has 1 as a checkpoint and as no head. The
heads of both calls cover their commits. -/
theorem earlier_head_stays :
    (∀ stage ∈ [rootStage, childStage], diamond.AncestorClosed stage.part) ∧
      rootStage.part ⊆ childStage.part ∧
      (∀ stage ∈ [rootStage, childStage], ∀ a ∈ stage.part, ∃ h ∈ stage.headIds,
        ReflTransGen diamond.edge h a) ∧
      ∃ chained once fresh, diamond.buildChain stackedMetric [rootStage, childStage] = .ok chained ∧
        (diamond.store childStage.part).buildFragmentStore childStage.headIds ∅ stackedMetric =
          (once, .ok fresh) ∧
        chained.keys = {.numbered 1, .numbered 2} ∧ once.keys = {.numbered 2} := by
  refine ⟨closed_of_stage, by decide +kernel, ?_, ?_⟩
  · intro stage listed a inPart
    simp only [List.mem_cons, List.not_mem_nil, or_false] at listed
    rcases listed with rfl | rfl
    · refine ⟨.numbered 1, List.mem_cons_self, ?_⟩
      rw [Finset.mem_singleton.mp inPart]
    · refine ⟨.numbered 2, List.mem_cons_self, ?_⟩
      rcases Finset.mem_insert.mp inPart with rfl | isTwo
      · exact .single ⟨{.numbered 1}, by decide +kernel, Finset.mem_singleton_self _⟩
      · rw [Finset.mem_singleton.mp isTwo]
  · obtain ⟨chained, runs, -⟩ :=
      @GrownBuild.chain _ _ _ diamond stackedMetric _ closed_of_stage grows_of_stage
    obtain ⟨once, fresh, runsOnce, -⟩ := CommitStore.buildFragmentStore_canonical
      (diamond.serves (closed_of_stage childStage (by simp))) diamond.founded childStage.headIds
      stackedMetric
    refine ⟨chained, once, fresh, runs, runsOnce, ?_, ?_⟩
    · have keys : (diamond.buildChain stackedMetric [rootStage, childStage]).toOption.map FinMap.keys =
          some {.numbered 1, .numbered 2} := by decide +kernel
      rw [runs] at keys
      exact Option.some.inj keys
    · have keys : ((diamond.store childStage.part).buildFragmentStore childStage.headIds ∅
          stackedMetric).1.keys = {.numbered 2} := by decide +kernel
      rw [runsOnce] at keys
      exact keys

theorem buildChain_eq_once_diamond :
    (∀ stage ∈ [rootStage, childStage], diamond.AncestorClosed stage.part) ∧
      [rootStage, childStage].Pairwise (fun earlier later => earlier.part ⊆ later.part) ∧
      ∃ known fresh, diamond.buildChain stackedMetric [rootStage, childStage] = .ok known ∧
        (diamond.store childStage.part).buildFragmentStore [.numbered 2, .numbered 1] ∅ stackedMetric =
          (known, .ok fresh) := by
  obtain ⟨known, runs, same, -⟩ := buildChain_eq_once diamond stackedMetric [rootStage] childStage
    closed_of_stage grows_of_stage
  obtain ⟨fresh, runsOnce⟩ := same [.numbered 2, .numbered 1] (by decide +kernel)
  exact ⟨closed_of_stage, grows_of_stage, known, fresh, runs, runsOnce⟩

end Subduction
