/-
**The commit graph as the source stores it.**

Nodes and edges are entries of two lists and are named by their positions. Each node has two linked lists
through the edges, one of its parents and one of its children; a new edge is put in front of both. The
walk of `simplify` is over positions.

* `Chain` — a linked list through the edges; **`follow_eq`** — the iterator returns it.
* `Represents` — the linked lists are those of a list of edges; **`Represents.addEdge`** — and stay so.
* **`simplify_eq`** — the walk over positions keeps the commits that the walk over identifiers keeps.
-/

import Subduction.Core.CommitDag

set_option linter.unusedSectionVars false

namespace Subduction

open List

/-! ### The source -/

/-- A node: its commit, and the newest edges of the lists of its parents and children. -/
structure IndexedDag.Node where
  id : CommitId
  parents : Option Nat
  children : Option Nat

/-- An edge in a list: the node at its other end, and the next edge of the list. -/
structure IndexedDag.Edge where
  source : Nat
  next : Option Nat

/-- **A commit graph by positions.** -/
structure IndexedDag where
  nodes : List IndexedDag.Node
  nodeMap : FinMap CommitId Nat
  edges : List IndexedDag.Edge

namespace IndexedDag

variable [IterOrder CommitId]

section

variable (dag : IndexedDag)

/-- `CommitDag::add_edge`: one entry in the list of the parents of the target, and one in the list of the
children of the source. -/
def addEdge (source target : Nat) : IndexedDag :=
  let parentEdgeIdx := dag.edges.length
  let prevParentHead := dag.nodes[target]?.bind Node.parents
  let nodes := dag.nodes.modify target fun node => { node with parents := some parentEdgeIdx }
  let edges := dag.edges ++ [⟨source, prevParentHead⟩]
  let childEdgeIdx := edges.length
  let prevChildHead := nodes[source]?.bind Node.children
  { dag with
    nodes := nodes.modify source fun node => { node with children := some childEdgeIdx }
    edges := edges ++ [⟨target, prevChildHead⟩] }

def addParents (commit : LooseCommit) : IndexedDag :=
  match dag.nodeMap.get? commit.head with
  | none => dag
  | some childIdx =>
    (IterOrder.list commit.parents).foldl (fun dag parent =>
      match dag.nodeMap.get? parent with
      | some parentIdx => dag.addEdge parentIdx childIdx
      | none => dag) dag

/-- `CommitDag::from_commits`. -/
def fromCommits (commits : List LooseCommit) : IndexedDag :=
  let nodes := commits.map fun commit => ⟨commit.head, none, none⟩
  commits.foldl addParents ⟨nodes, FinMap.positions Node.id nodes, []⟩

def idAt (idx : Nat) : CommitId := (dag.nodes[idx]?.map Node.id).getD ⟨0⟩

/-- `ParentsIter`: the list that starts with an edge, for at most `fuel` edges. -/
def follow (edges : List Edge) : Nat → Option Nat → List Nat
  | 0, _ => []
  | _ + 1, none => []
  | fuel + 1, some edge =>
    match edges[edge]? with
    | none => []
    | some entry => entry.source :: follow edges fuel entry.next

/-- `CommitDag::parents`. -/
def parents (node : Nat) : List Nat :=
  follow dag.edges dag.edges.length (dag.nodes[node]?.bind Node.parents)

/-- `CommitDag::tips`. -/
def tips : List Nat :=
  (List.range dag.nodes.length).filter fun idx => (dag.nodes[idx]?.bind Node.children).isNone

/-- One step of the walk of `simplify`. -/
def visitRange (_ : Finset (Nat × Option CommitId)) (ranges : CommitDag.Ranges)
    (item : Nat × Option CommitId) :
    CommitDag.Ranges × Except Empty (List (Nat × Option CommitId)) :=
  let (nodeIdx, rangeHead) := item
  let id := dag.idAt nodeIdx
  let next :=
    match rangeHead with
    | some head =>
      { ranges with commitsToRanges :=
          ranges.commitsToRanges.insert id ((ranges.commitsToRanges.get? id).getD [] ++ [head]) }
    | none => { ranges with rangelessCommits := insert id ranges.rangelessCommits }
  (next, .ok ((dag.parents nodeIdx).map fun parent => (parent, rangeHead)))

/-- The pairs the walk of `simplify` can meet. -/
def pairs : Finset (Nat × Option CommitId) :=
  Finset.range dag.nodes.length ×ˢ insert none ((dag.nodes.map Node.id).toFinset.image some)

def collectRanges (strategy : DepthMetric) : CommitDag.Ranges :=
  let tips := dag.tips.insertionSort fun first second => dag.idAt first ≤ dag.idAt second
  (Worklist.run (fun item => (item.1, CommitDag.rangeAt strategy (dag.idAt item.1) item.2)) dag.visitRange
    (tips.length + ∑ item ∈ dag.pairs, (dag.parents item.1).length)
    (tips.map fun tip => (tip, none)).reverse ∅ ⟨∅, ∅⟩).1.2

/-- `CommitDag::simplify`. -/
def simplify (fragments : List Fragment) (strategy : DepthMetric) : Finset CommitId :=
  let ranges := dag.collectRanges strategy
  let coveredRangeHeads := (fragments.map Fragment.head).toFinset
  let coveredCheckpoints := fragments.toFinset.biUnion Fragment.checkpoints
  ranges.commitsToRanges.keys.filter (fun commit =>
      !((ranges.commitsToRanges.get? commit).getD []).all fun r =>
        decide (r ∈ coveredRangeHeads) || decide (Checkpoint.new r ∈ coveredCheckpoints))
    ∪ ranges.rangelessCommits

/-! ### Linked lists -/

/-- **A linked list through the edges**, each edge older than the one before it. -/
inductive Chain (edges : List Edge) : Option Nat → List Nat → Prop
  | nil : Chain edges none []
  | cons {edge : Nat} {entry : Edge} {rest : List Nat} (found : edges[edge]? = some entry)
      (older : ∀ next, entry.next = some next → next < edge) (tail : Chain edges entry.next rest) :
      Chain edges (some edge) (entry.source :: rest)

variable {edges : List Edge} {start : Option Nat} {list : List Nat}

variable (chain : Chain edges start list)

include chain

theorem Chain.append (more : List Edge) : Chain (edges ++ more) start list := by
  induction chain with
  | nil => exact .nil
  | cons found older _ ih =>
    exact .cons (List.getElem?_append_left (List.getElem?_eq_some_iff.mp found).1 ▸ found) older ih

theorem Chain.start_lt : ∀ edge, start = some edge → edge < edges.length := by
  cases chain with
  | nil => exact fun edge impossible => by cases impossible
  | cons found _ _ =>
    intro edge same
    obtain rfl := Option.some.inj same
    exact (List.getElem?_eq_some_iff.mp found).1

theorem Chain.push (source : Nat) (more : List Edge) :
    Chain (edges ++ ⟨source, start⟩ :: more) (some edges.length) (source :: list) := by
  have found : (edges ++ ⟨source, start⟩ :: more)[edges.length]? = some ⟨source, start⟩ := by
    rw [List.getElem?_append_right le_rfl, Nat.sub_self]
    rfl
  exact .cons found chain.start_lt (chain.append _)

theorem chain_isNone : start.isNone ↔ list = [] := by
  cases chain with
  | nil => simp
  | cons _ _ _ => simp

theorem follow_eq {fuel : Nat}
    (enough : ∀ edge, start = some edge → edge < fuel) : follow edges fuel start = list := by
  induction chain generalizing fuel with
  | nil =>
    cases fuel <;> rfl
  | @cons edge entry rest found older _ ih =>
    cases fuel with
    | zero => exact absurd (enough edge rfl) (Nat.not_lt_zero edge)
    | succ fuel =>
      rw [follow, found]
      refine congrArg (entry.source :: ·) (ih fun next isNext => ?_)
      exact (older next isNext).trans_le (Nat.le_of_lt_succ (enough edge rfl))

/-! ### The lists of all nodes -/

/-- **The linked lists are those of the edges**, given as pairs of parent and child, the newest first. -/
structure Represents (links : List (Nat × Nat)) : Prop where
  parents : ∀ idx, idx < dag.nodes.length →
    Chain dag.edges (dag.nodes[idx]?.bind Node.parents) ((links.filter fun link => link.2 = idx).map Prod.fst)
  children : ∀ idx, idx < dag.nodes.length →
    Chain dag.edges (dag.nodes[idx]?.bind Node.children) ((links.filter fun link => link.1 = idx).map Prod.snd)
  inside : ∀ link ∈ links, link.1 < dag.nodes.length ∧ link.2 < dag.nodes.length

end

variable {dag : IndexedDag} {links : List (Nat × Nat)}

@[simp] theorem length_nodes_addEdge (dag : IndexedDag) (source target : Nat) :
    (dag.addEdge source target).nodes.length = dag.nodes.length := by
  simp [addEdge]

theorem nodes_addEdge (dag : IndexedDag) (source target idx : Nat) :
    (dag.addEdge source target).nodes[idx]? = dag.nodes[idx]?.map fun node =>
      ⟨node.id, if idx = target then some dag.edges.length else node.parents,
        if idx = source then some (dag.edges.length + 1) else node.children⟩ := by
  unfold addEdge
  simp only [List.getElem?_modify, length_append, length_singleton]
  cases dag.nodes[idx]? with
  | none => rfl
  | some node =>
    simp only [Option.map_some]
    by_cases isTarget : target = idx <;> by_cases isSource : source = idx <;>
      simp [isTarget, isSource, eq_comm]

theorem idAt_addEdge (dag : IndexedDag) (source target idx : Nat) :
    (dag.addEdge source target).idAt idx = dag.idAt idx := by
  unfold idAt
  rw [nodes_addEdge, Option.map_map]
  rfl

theorem edges_addEdge (dag : IndexedDag) (source target : Nat) :
    (dag.addEdge source target).edges = dag.edges ++
      ⟨source, dag.nodes[target]?.bind Node.parents⟩ ::
        [⟨target, dag.nodes[source]?.bind Node.children⟩] := by
  unfold addEdge
  simp only [append_assoc, singleton_append]
  congr 4
  simp only [List.getElem?_modify]
  cases dag.nodes[source]? with
  | none => rfl
  | some node => by_cases same : target = source <;> simp [same]

theorem Represents.addEdge (represents : dag.Represents links) {source target : Nat}
    (isSource : source < dag.nodes.length) (isTarget : target < dag.nodes.length) :
    (dag.addEdge source target).Represents ((source, target) :: links) := by
  refine ⟨fun idx isNode => ?_, fun idx isNode => ?_, fun link member => ?_⟩
  · rw [length_nodes_addEdge] at isNode
    have old := represents.parents idx isNode
    rw [nodes_addEdge, edges_addEdge]
    have found := List.getElem?_eq_getElem isNode
    rw [found] at old ⊢
    by_cases same : idx = target
    · subst same
      rw [filter_cons_of_pos (by simp), map_cons]
      simpa [found] using old.push source _
    · rw [filter_cons_of_neg (by simpa using fun same' => same same'.symm)]
      simpa [same] using old.append _
  · rw [length_nodes_addEdge] at isNode
    have old := represents.children idx isNode
    rw [nodes_addEdge, edges_addEdge]
    have found := List.getElem?_eq_getElem isNode
    rw [found] at old ⊢
    by_cases same : idx = source
    · subst same
      rw [filter_cons_of_pos (by simp), map_cons]
      have pushed := (old.append [⟨idx, dag.nodes[target]?.bind Node.parents⟩]).push target []
      simpa [found] using pushed
    · rw [filter_cons_of_neg (by simpa using fun same' => same same'.symm)]
      simpa [same] using old.append _
  · rw [length_nodes_addEdge]
    rcases mem_cons.mp member with rfl | old
    · exact ⟨isSource, isTarget⟩
    · exact represents.inside link old

theorem Represents.parents_eq (represents : dag.Represents links) {idx : Nat} (isNode : idx < dag.nodes.length) :
    dag.parents idx = (links.filter fun link => link.2 = idx).map Prod.fst :=
  follow_eq (represents.parents idx isNode) (represents.parents idx isNode).start_lt

/-! ### The graph by identifiers -/

/-- **The two forms of a graph**, for commits with distinct identifiers. -/
structure Mirrors (dag : IndexedDag) (plain : CommitDag) : Prop where
  ids : dag.nodes.map Node.id = plain.nodes
  distinct : plain.nodes.Nodup
  found : ∀ id idx, dag.nodeMap.get? id = some idx ↔ plain.nodes[idx]? = some id
  linked : ∃ links, dag.Represents links ∧
    plain.edges = links.map fun link => (dag.idAt link.1, dag.idAt link.2)

variable {plain : CommitDag}

namespace Mirrors

variable (mirrors : dag.Mirrors plain)

include mirrors

theorem idAt_eq (idx : Nat) : dag.idAt idx = plain.nodes[idx]?.getD ⟨0⟩ := by
  unfold idAt
  rw [← List.getElem?_map, mirrors.ids]

theorem length_eq : dag.nodes.length = plain.nodes.length := by
  rw [← mirrors.ids, length_map]

theorem idAt_injective {first second : Nat} (isFirst : first < dag.nodes.length)
    (isSecond : second < dag.nodes.length) (same : dag.idAt first = dag.idAt second) : first = second := by
  rw [mirrors.length_eq] at isFirst isSecond
  rw [mirrors.idAt_eq, mirrors.idAt_eq, List.getElem?_eq_getElem isFirst, List.getElem?_eq_getElem isSecond] at same
  exact (mirrors.distinct.getElem_inj_iff).mp same

theorem of_found {id : CommitId} {idx : Nat}
    (found : dag.nodeMap.get? id = some idx) : idx < dag.nodes.length ∧ dag.idAt idx = id := by
  have atIdx := (mirrors.found id idx).mp found
  rw [mirrors.length_eq, mirrors.idAt_eq, atIdx]
  exact ⟨(List.getElem?_eq_some_iff.mp atIdx).1, rfl⟩

theorem found_iff {id : CommitId} : (∃ idx, dag.nodeMap.get? id = some idx) ↔ id ∈ plain.nodes := by
  simp only [mirrors.found, mem_iff_getElem?]

theorem addEdge {source target : Nat} (isSource : source < dag.nodes.length)
    (isTarget : target < dag.nodes.length) :
    (dag.addEdge source target).Mirrors (plain.addEdge (dag.idAt source) (dag.idAt target)) := by
  obtain ⟨links, represents, same⟩ := mirrors.linked
  refine ⟨?_, mirrors.distinct, mirrors.found, _, represents.addEdge isSource isTarget, ?_⟩
  · refine Eq.trans (ext_getElem? fun idx => ?_) mirrors.ids
    rw [List.getElem?_map, List.getElem?_map, nodes_addEdge, Option.map_map]
    rfl
  · simp only [idAt_addEdge]
    show _ :: plain.edges = _
    rw [same]
    rfl

theorem foldl_addEdge {childIdx : Nat} (isChild : childIdx < dag.nodes.length)
    (listed : List CommitId) : (listed.foldl (fun dag parent => match dag.nodeMap.get? parent with
      | some parentIdx => dag.addEdge parentIdx childIdx
      | none => dag) dag).Mirrors (listed.foldl (fun plain parent =>
        if parent ∈ plain.nodes then plain.addEdge parent (dag.idAt childIdx) else plain) plain) := by
  induction listed generalizing dag plain with
  | nil => exact mirrors
  | cons parent listed ih =>
    rw [foldl_cons, foldl_cons]
    cases found : dag.nodeMap.get? parent with
    | none =>
      have absent : parent ∉ plain.nodes := by
        intro present
        obtain ⟨idx, isIdx⟩ := mirrors.found_iff.mpr present
        rw [found] at isIdx
        cases isIdx
      rw [if_neg absent]
      exact ih mirrors isChild
    | some parentIdx =>
      obtain ⟨isParent, isId⟩ := mirrors.of_found found
      rw [if_pos (mirrors.found_iff.mp ⟨parentIdx, found⟩)]
      have next := ih (mirrors.addEdge isParent isChild) (by rwa [length_nodes_addEdge])
      rw [idAt_addEdge, isId] at next
      exact next

theorem addParents {commit : LooseCommit} (isNode : commit.head ∈ plain.nodes) :
    (dag.addParents commit).Mirrors (plain.addParents commit) := by
  obtain ⟨childIdx, found⟩ := mirrors.found_iff.mpr isNode
  obtain ⟨isChild, isId⟩ := mirrors.of_found found
  unfold IndexedDag.addParents CommitDag.addParents
  rw [found]
  have next := mirrors.foldl_addEdge isChild (IterOrder.list commit.parents)
  rw [isId] at next
  exact next

theorem foldl_addParents (commits : List LooseCommit)
    (nodes : ∀ commit ∈ commits, commit.head ∈ plain.nodes) :
    (commits.foldl IndexedDag.addParents dag).Mirrors (commits.foldl CommitDag.addParents plain) := by
  induction commits generalizing dag plain with
  | nil => exact mirrors
  | cons commit commits ih =>
    refine ih (mirrors.addParents (nodes commit mem_cons_self)) fun other member => ?_
    rw [CommitDag.addParents_nodes]
    exact nodes other (mem_cons_of_mem _ member)

end Mirrors

theorem mirrors_fromCommits {commits : List LooseCommit} (distinct : (commits.map LooseCommit.head).Nodup) :
    (fromCommits commits).Mirrors (CommitDag.fromCommits commits) := by
  have ids : (commits.map fun commit => (⟨commit.head, none, none⟩ : Node)).map Node.id =
      commits.map LooseCommit.head := by
    rw [map_map]
    rfl
  refine Mirrors.foldl_addParents ⟨ids, distinct, ?_, [], ?_, rfl⟩ commits
    fun commit member => mem_map_of_mem member
  · intro id idx
    rw [← ids]
    exact FinMap.get?_positions (ids ▸ distinct) id idx
  · refine ⟨fun idx _ => ?_, fun idx _ => ?_, fun link member => absurd member not_mem_nil⟩
    · rw [List.getElem?_map]
      cases commits[idx]? <;> exact .nil
    · rw [List.getElem?_map]
      cases commits[idx]? <;> exact .nil

/-! ### The walk -/

namespace Mirrors

section

variable (mirrors : dag.Mirrors plain)

include mirrors

theorem map_parents {idx : Nat} (isNode : idx < dag.nodes.length) :
    (dag.parents idx).map dag.idAt = plain.parents (dag.idAt idx) := by
  obtain ⟨links, represents, same⟩ := mirrors.linked
  rw [represents.parents_eq isNode, CommitDag.parents, same, map_map, filter_map, map_map]
  refine congrArg (List.map _) (filter_congr fun link member => ?_)
  rw [Function.comp_apply, decide_eq_decide]
  exact ⟨fun isIdx => congrArg dag.idAt isIdx,
    mirrors.idAt_injective (represents.inside link member).2 isNode⟩

theorem parents_lt {idx parent : Nat} (isNode : idx < dag.nodes.length)
    (isParent : parent ∈ dag.parents idx) : parent < dag.nodes.length := by
  obtain ⟨links, represents, -⟩ := mirrors.linked
  rw [represents.parents_eq isNode] at isParent
  obtain ⟨link, member, rfl⟩ := mem_map.mp isParent
  exact (represents.inside link (mem_filter.mp member).1).1

theorem map_range : (List.range dag.nodes.length).map dag.idAt = plain.nodes := by
  refine ext_getElem? fun idx => ?_
  rw [List.getElem?_map]
  by_cases inside : idx < dag.nodes.length
  · rw [List.getElem?_range inside, Option.map_some, mirrors.idAt_eq,
      List.getElem?_eq_getElem (mirrors.length_eq ▸ inside)]
    rfl
  · rw [List.getElem?_eq_none (by simpa using inside),
      List.getElem?_eq_none (by rw [← mirrors.length_eq]; exact Nat.not_lt.mp inside)]
    rfl

theorem map_tips : dag.tips.map dag.idAt = plain.tips := by
  obtain ⟨links, represents, same⟩ := mirrors.linked
  unfold IndexedDag.tips CommitDag.tips
  rw [← mirrors.map_range, filter_map]
  refine congrArg (List.map _) (filter_congr fun idx member => ?_)
  have isNode : idx < dag.nodes.length := mem_range.mp member
  rw [Function.comp_apply, Bool.eq_iff_iff, decide_eq_true_eq, chain_isNone (represents.children idx isNode),
    map_eq_nil_iff, filter_eq_nil_iff, same]
  constructor
  · intro childless isSource
    obtain ⟨edge, isEdge, isIdx⟩ := mem_map.mp isSource
    obtain ⟨link, isLink, rfl⟩ := mem_map.mp isEdge
    have sameIdx := mirrors.idAt_injective (represents.inside link isLink).1 isNode isIdx
    exact childless link isLink (decide_eq_true sameIdx)
  · intro noSource link isLink isIdx
    refine noSource (mem_map.mpr ⟨_, mem_map.mpr ⟨link, isLink, rfl⟩, ?_⟩)
    exact congrArg dag.idAt (of_decide_eq_true isIdx)

end

theorem tips_lt {idx : Nat} (isTip : idx ∈ dag.tips) : idx < dag.nodes.length :=
  mem_range.mp (mem_filter.mp isTip).1

theorem visitRange_eq (mirrors : dag.Mirrors plain) (seen : Finset (Nat × Option CommitId))
    (seen' : Finset (CommitId × Option CommitId)) (ranges : CommitDag.Ranges)
    {item : Nat × Option CommitId} (isNode : item.1 < dag.nodes.length) :
    plain.visitRange seen' ranges (dag.idAt item.1, item.2) = ((dag.visitRange seen ranges item).1,
        (dag.visitRange seen ranges item).2.map (List.map fun item => (dag.idAt item.1, item.2))) := by
  obtain ⟨idx, range⟩ := item
  have pushed : (plain.parents (dag.idAt idx)).map (fun parent => (parent, range)) =
      ((dag.parents idx).map fun parent => (parent, range)).map fun item => (dag.idAt item.1, item.2) := by
    rw [← mirrors.map_parents isNode, map_map, map_map]
    rfl
  show (_, Except.ok _) = (_, Except.ok _)
  rw [pushed]
  cases range <;> rfl

theorem fuel_eq (mirrors : dag.Mirrors plain) :
    ∑ item ∈ plain.pairs, (plain.parents item.1).length = ∑ item ∈ dag.pairs, (dag.parents item.1).length := by
  have pairs : plain.pairs = dag.pairs.image fun item => (dag.idAt item.1, item.2) := by
    have isNode : ∀ id, id ∈ plain.nodes ↔ ∃ idx < dag.nodes.length, dag.idAt idx = id := by
      intro id
      rw [← mirrors.map_range, mem_map]
      simp only [mem_range]
    unfold CommitDag.pairs IndexedDag.pairs
    rw [mirrors.ids]
    ext ⟨id, range⟩
    rw [Finset.mem_product, Finset.mem_image, mem_toFinset, isNode]
    constructor
    · rintro ⟨⟨idx, inside, rfl⟩, isRange⟩
      exact ⟨(idx, range), Finset.mem_product.mpr ⟨Finset.mem_range.mpr inside, isRange⟩, rfl⟩
    · rintro ⟨⟨idx, other⟩, member, same⟩
      obtain ⟨rfl, rfl⟩ := Prod.mk.inj same
      obtain ⟨inside, isRange⟩ := Finset.mem_product.mp member
      exact ⟨⟨idx, Finset.mem_range.mp inside, rfl⟩, isRange⟩
  have isNode : ∀ item ∈ dag.pairs, item.1 < dag.nodes.length := fun item member =>
    Finset.mem_range.mp (Finset.mem_product.mp member).1
  rw [pairs, Finset.sum_image]
  · refine Finset.sum_congr rfl fun item member => ?_
    rw [← mirrors.map_parents (isNode item member), length_map]
  · intro first isFirst second isSecond same
    obtain ⟨sameId, sameRange⟩ := Prod.mk.inj same
    exact Prod.ext (mirrors.idAt_injective (isNode first isFirst) (isNode second isSecond) sameId) sameRange

theorem collectRanges_eq (mirrors : dag.Mirrors plain) (strategy : DepthMetric) :
    dag.collectRanges strategy = plain.collectRanges strategy := by
  have sorted : (dag.tips.insertionSort fun first second => dag.idAt first ≤ dag.idAt second).map dag.idAt =
      plain.tips.insertionSort (· ≤ ·) := by
    rw [← mirrors.map_tips]
    exact map_insertionSort _ _ dag.idAt dag.tips fun _ _ _ _ => Iff.rfl
  have isTip : ∀ idx ∈ dag.tips.insertionSort fun first second => dag.idAt first ≤ dag.idAt second,
      idx < dag.nodes.length := fun idx member =>
    tips_lt ((perm_insertionSort _ dag.tips).mem_iff.mp member)
  unfold IndexedDag.collectRanges CommitDag.collectRanges
  dsimp only
  rw [← sorted, mirrors.fuel_eq, length_map, map_map]
  generalize (dag.tips.insertionSort fun first second => dag.idAt first ≤ dag.idAt second) = tips at isTip
  have renamed := Worklist.run_map
    (fun item : Nat × Option CommitId => (item.1, CommitDag.rangeAt strategy (dag.idAt item.1) item.2))
    (fun item : CommitId × Option CommitId => (item.1, CommitDag.rangeAt strategy item.1 item.2))
    dag.visitRange plain.visitRange (fun item => (dag.idAt item.1, item.2)) (fun item => (dag.idAt item.1, item.2))
    (fun item => item.1 < dag.nodes.length) (fun _ _ => rfl)
    (fun first second isFirst isSecond same => Prod.ext
      (mirrors.idAt_injective isFirst isSecond (Prod.mk.inj same).1) (Prod.mk.inj same).2)
    (fun seen ranges item isNode => mirrors.visitRange_eq seen _ ranges isNode)
    (fun seen ranges item pushed isNode answer other member => ?_)
    (tips.length + ∑ item ∈ dag.pairs, (dag.parents item.1).length)
    (tips.map fun tip => ((tip, none) : Nat × Option CommitId)).reverse ∅ ⟨∅, ∅⟩ ?_
    fun item member => absurd member (Finset.notMem_empty item)
  · rw [map_reverse, map_map, Finset.image_empty] at renamed
    exact (congrArg (fun result => result.1.2) renamed).symm
  · obtain rfl := Except.ok.inj answer
    obtain ⟨parent, isParent, rfl⟩ := mem_map.mp member
    exact mirrors.parents_lt isNode isParent
  · intro item member
    obtain ⟨tip, isListed, rfl⟩ := mem_map.mp (mem_reverse.mp member)
    exact isTip tip isListed

end Mirrors

theorem simplify_eq {commits : List LooseCommit} (distinct : (commits.map LooseCommit.head).Nodup)
    (fragments : List Fragment) (strategy : DepthMetric) :
    (fromCommits commits).simplify fragments strategy =
      (CommitDag.fromCommits commits).simplify fragments strategy := by
  unfold simplify CommitDag.simplify
  rw [(mirrors_fromCommits distinct).collectRanges_eq strategy]

end IndexedDag

end Subduction
