/-
**The order in which the blobs of a tree are reassembled.**

`topsorted_blob_order` numbers the fragments and after them the loose commits, in the iteration order of
their maps, and sorts the numbers by the dependencies of the items: a fragment depends on the fragments at
its boundary, a loose commit on the fragments and loose commits at its parents.

Main results: `topsortedBlobOrder_spec`, `causallyComplete_iff`.
-/

import Subduction.Core.Sedimentree
import Subduction.Lib.Kahn

namespace Subduction

open Relation List

/-! ### The source -/

/-- `SedimentreeItem`: an item by its position in the iteration order. -/
inductive SedimentreeItem
  | fragment (index : Nat)
  | looseCommit (index : Nat)
deriving DecidableEq

/-- `CycleError`. -/
structure CycleError where
  total : Nat
  sorted : Nat
deriving DecidableEq

namespace Sedimentree

section Source

/-- The dependencies of a fragment: the fragments with a head at its boundary. -/
def linkBoundary (headToFrag : FinMap CommitId Nat) (ledger : Kahn.Ledger Nat) (entry : Fragment × Nat) :
    Kahn.Ledger Nat :=
  (ascendingList entry.1.boundary).foldl (fun ledger boundaryDigest =>
    match headToFrag.get? boundaryDigest with
    | some j => ledger.link j entry.2
    | none => ledger) ledger

/-- The dependencies of a loose commit: the fragments and loose commits at its parents, each once. -/
def linkParents (headToFrag idToLoose : FinMap CommitId Nat) (nFrags : Nat) (ledger : Kahn.Ledger Nat)
    (entry : LooseCommit × Nat) : Kahn.Ledger Nat :=
  let idx := nFrags + entry.2
  ((ascendingList entry.1.parents).foldl (fun state parent =>
    let state := match headToFrag.get? parent with
      | some fi => Kahn.Ledger.linkOnce idx state fi
      | none => state
    match idToLoose.get? parent with
    | some pli => Kahn.Ledger.linkOnce idx state (nFrags + pli)
    | none => state) (ledger, ∅)).1

variable [IterOrder CommitId]

def dependencyLedger (tree : Sedimentree) : Kahn.Ledger Nat :=
  let fragments := tree.fragments.map.values
  let loose := tree.commits.map.values
  let headToFrag := FinMap.positions Fragment.head fragments
  let ledger := fragments.zipIdx.foldl (linkBoundary headToFrag) .empty
  let idToLoose := FinMap.positions LooseCommit.head loose
  loose.zipIdx.foldl (linkParents headToFrag idToLoose fragments.length) ledger

def itemOf (nFrags i : Nat) : SedimentreeItem :=
  if i < nFrags then .fragment i else .looseCommit (i - nFrags)

/-- `Sedimentree::topsorted_blob_order`. -/
def topsortedBlobOrder (tree : Sedimentree) : Option (Except CycleError (List SedimentreeItem)) :=
  let nFrags := tree.fragments.map.values.length
  let nTotal := nFrags + tree.commits.map.values.length
  if nTotal = 0 then some (.ok [])
  else
    match Kahn.sort (List.range nTotal) tree.dependencyLedger with
    | none => none
    | some order =>
      if order.length ≠ nTotal then some (.error ⟨nTotal, order.length⟩)
      else some (.ok (order.map (itemOf nFrags)))

end Source

end Sedimentree

/-! ### The items and their dependencies -/

/-- `CommitOrFragment`. -/
inductive CommitOrFragment
  | commit (commit : LooseCommit)
  | fragment (fragment : Fragment)
deriving DecidableEq

namespace CommitOrFragment

def head : CommitOrFragment → CommitId
  | .commit item => item.head
  | .fragment item => item.head

/-- **What an item depends on**: a fragment on the fragments headed by a boundary commit, a loose commit on
the items headed by a parent. -/
def DependsOn : CommitOrFragment → CommitOrFragment → Prop
  | .fragment item, .fragment dependency => dependency.head ∈ item.boundary
  | .fragment _, .commit _ => False
  | .commit item, dependency => dependency.head ∈ item.parents

end CommitOrFragment

namespace Sedimentree

def Carries (tree : Sedimentree) : CommitOrFragment → Prop
  | .commit commit => tree.commits.map.get? commit.head = some commit
  | .fragment fragment => tree.fragments.map.get? fragment.head = some fragment

/-- **A dependency** between two items of the tree. -/
def Dependency (tree : Sedimentree) (dependency item : CommitOrFragment) : Prop :=
  tree.Carries dependency ∧ tree.Carries item ∧ item.DependsOn dependency

def Acyclic (tree : Sedimentree) : Prop := ∀ item, ¬ TransGen tree.Dependency item item

variable [IterOrder CommitId]

def resolve (tree : Sedimentree) : SedimentreeItem → Option CommitOrFragment
  | .fragment index => tree.fragments.map.values[index]?.map .fragment
  | .looseCommit index => tree.commits.map.values[index]?.map .commit

/-- **An order of the items**: each exactly once, after its dependencies. -/
structure IsTopological (tree : Sedimentree) (order : List SedimentreeItem) : Prop where
  nodup : (order.map tree.resolve).Nodup
  mem_iff : ∀ entry, entry ∈ order.map tree.resolve ↔ ∃ item, tree.Carries item ∧ entry = some item
  after : ∀ dependency item, tree.Dependency dependency item →
    Kahn.Before (order.map tree.resolve) (some dependency) (some item)

/-- **Every fragment comes after whatever carries one of its boundary commits.** -/
def CausallyComplete (tree : Sedimentree) (order : List SedimentreeItem) : Prop :=
  ∀ fragment item, tree.Carries (.fragment fragment) → tree.Carries item → item.head ∈ fragment.boundary →
    Kahn.Before (order.map tree.resolve) (some item) (some (.fragment fragment))

/-! ### The items by their numbers -/

/-- The items in the order of their numbers. -/
def items (tree : Sedimentree) : List CommitOrFragment :=
  tree.fragments.map.values.map .fragment ++ tree.commits.map.values.map .commit

variable (tree : Sedimentree)

variable {item : CommitOrFragment} {index : Nat} {order : List SedimentreeItem}

theorem mem_items : item ∈ tree.items ↔ tree.Carries item := by
  unfold items
  rw [mem_append, mem_map, mem_map]
  cases item with
  | commit commit =>
    simp only [reduceCtorEq, and_false, exists_false, false_or, CommitOrFragment.commit.injEq,
      exists_eq_right]
    exact Shelf.mem_values
  | fragment fragment =>
    simp only [reduceCtorEq, and_false, exists_false, or_false, CommitOrFragment.fragment.injEq,
      exists_eq_right]
    exact Shelf.mem_values

theorem length_items : tree.items.length = tree.fragments.map.values.length + tree.commits.map.values.length := by
  unfold items
  rw [length_append, length_map, length_map]

theorem nodup_items : tree.items.Nodup := by
  have fragments := List.Nodup.of_map _ tree.fragments.nodup_map_head_values
  have commits := List.Nodup.of_map _ tree.commits.nodup_map_head_values
  refine nodup_append'.mpr ⟨fragments.map fun _ _ same => CommitOrFragment.fragment.inj same,
    commits.map fun _ _ same => CommitOrFragment.commit.inj same, ?_⟩
  intro item isFragment isCommit
  obtain ⟨_, _, rfl⟩ := mem_map.mp isFragment
  obtain ⟨_, _, same⟩ := mem_map.mp isCommit
  cases same

theorem getElem?_items_of_lt (less : index < tree.fragments.map.values.length) :
    tree.items[index]? = tree.fragments.map.values[index]?.map .fragment := by
  unfold items
  rw [List.getElem?_append_left (by rwa [length_map]), List.getElem?_map]

theorem getElem?_items_add (index : Nat) :
    tree.items[tree.fragments.map.values.length + index]? = tree.commits.map.values[index]?.map .commit := by
  unfold items
  rw [List.getElem?_append_right (by rw [length_map]; exact Nat.le_add_right _ _), length_map,
    Nat.add_sub_cancel_left, List.getElem?_map]

theorem resolve_itemOf (index : Nat) :
    tree.resolve (itemOf tree.fragments.map.values.length index) = tree.items[index]? := by
  unfold itemOf
  by_cases less : index < tree.fragments.map.values.length
  · rw [if_pos less, getElem?_items_of_lt tree less]
    rfl
  · obtain ⟨rest, rfl⟩ := Nat.exists_eq_add_of_le (Nat.le_of_not_lt less)
    rw [if_neg less, getElem?_items_add, Nat.add_sub_cancel_left]
    rfl

theorem headToFrag_get? {id : CommitId} :
    (FinMap.positions Fragment.head tree.fragments.map.values).get? id = some index ↔
      ∃ fragment, tree.items[index]? = some (.fragment fragment) ∧ fragment.head = id := by
  refine (FinMap.get?_positions tree.fragments.nodup_map_head_values id index).trans ?_
  rw [List.getElem?_map, Option.map_eq_some_iff]
  refine exists_congr fun fragment => and_congr_left fun _ => ?_
  by_cases less : index < tree.fragments.map.values.length
  · rw [getElem?_items_of_lt tree less, Option.map_eq_some_iff]
    simp
  · obtain ⟨rest, rfl⟩ := Nat.exists_eq_add_of_le (Nat.le_of_not_lt less)
    rw [List.getElem?_eq_none (Nat.le_add_right _ _), getElem?_items_add, Option.map_eq_some_iff]
    simp

theorem idToLoose_get? {id : CommitId} :
    (FinMap.positions LooseCommit.head tree.commits.map.values).get? id = some index ↔
      ∃ commit, tree.items[tree.fragments.map.values.length + index]? = some (.commit commit) ∧
        commit.head = id := by
  refine (FinMap.get?_positions tree.commits.nodup_map_head_values id index).trans ?_
  rw [List.getElem?_map, Option.map_eq_some_iff]
  refine exists_congr fun commit => and_congr_left fun _ => ?_
  rw [getElem?_items_add, Option.map_eq_some_iff]
  simp

/-! ### The ledger of the dependencies -/

/-- A dependency between two numbers. -/
def IndexLink (dependency item : Nat) : Prop :=
  ∃ first second, tree.items[dependency]? = some first ∧ tree.items[item]? = some second ∧
    second.DependsOn first

omit [IterOrder CommitId] in
theorem linkBoundary_eq (headToFrag : FinMap CommitId Nat) (ledger : Kahn.Ledger Nat) (entry : Fragment × Nat) :
    linkBoundary headToFrag ledger entry =
      ledger.linkAll ((ascendingList entry.1.boundary).filterMap headToFrag.get?) entry.2 := by
  unfold linkBoundary Kahn.Ledger.linkAll
  rw [foldl_filterMap]
  congr 1
  funext ledger id
  cases headToFrag.get? id with
  | none => rfl
  | some index => rfl

/-- The numbers of what a parent names. -/
def numbersOf (headToFrag idToLoose : FinMap CommitId Nat) (nFrags : Nat) (parent : CommitId) : List Nat :=
  (headToFrag.get? parent).toList ++ ((idToLoose.get? parent).map (nFrags + ·)).toList

omit [IterOrder CommitId] in
theorem linkParents_eq (headToFrag idToLoose : FinMap CommitId Nat) (nFrags : Nat) (ledger : Kahn.Ledger Nat)
    (entry : LooseCommit × Nat) :
    linkParents headToFrag idToLoose nFrags ledger entry =
      ledger.linkAll (Kahn.Ledger.unseen ∅ ((ascendingList entry.1.parents).flatMap
        (numbersOf headToFrag idToLoose nFrags))) (nFrags + entry.2) := by
  unfold linkParents
  rw [← Kahn.Ledger.foldl_linkOnce, foldl_flatMap]
  dsimp only
  congr 2
  funext state parent
  unfold numbersOf
  cases headToFrag.get? parent with
  | none =>
    cases idToLoose.get? parent with
    | none => rfl
    | some index => rfl
  | some first =>
    cases idToLoose.get? parent with
    | none => rfl
    | some index => rfl

theorem dependencyLedger_lists : tree.dependencyLedger.Lists tree.IndexLink tree.items.length := by
  unfold dependencyLedger
  rw [length_items]
  have fragments : (tree.fragments.map.values.zipIdx.foldl
      (linkBoundary (FinMap.positions Fragment.head tree.fragments.map.values)) .empty).Lists
      tree.IndexLink (0 + tree.fragments.map.values.length) := by
    refine Kahn.Ledger.Lists.foldl_zipIdx _ (fun ledger fragment index atIndex lists => ?_) (.empty _)
    rw [linkBoundary_eq]
    rw [Nat.zero_add] at lists ⊢
    have isItem : tree.items[index]? = some (.fragment fragment) := by
      rw [getElem?_items_of_lt tree (List.getElem?_eq_some_iff.mp atIndex).1, atIndex]
      rfl
    refine lists.linkAll fun dependency => ?_
    rw [mem_filterMap]
    simp only [mem_ascendingList, headToFrag_get?]
    constructor
    · rintro ⟨id, isBoundary, other, isOther, rfl⟩
      exact ⟨_, _, isOther, isItem, isBoundary⟩
    · rintro ⟨first, second, isFirst, isSecond, depends⟩
      rw [isItem] at isSecond
      obtain rfl := Option.some.inj isSecond
      cases first with
      | commit commit => exact depends.elim
      | fragment other => exact ⟨other.head, depends, other, isFirst, rfl⟩
  rw [Nat.zero_add] at fragments
  refine Kahn.Ledger.Lists.foldl_zipIdx _ (fun ledger commit index atIndex lists => ?_) fragments
  rw [linkParents_eq]
  have isItem : tree.items[tree.fragments.map.values.length + index]? = some (.commit commit) := by
    rw [getElem?_items_add, atIndex]
    rfl
  refine lists.linkAll fun dependency => ?_
  rw [Kahn.Ledger.mem_unseen, mem_flatMap]
  simp only [mem_ascendingList, numbersOf, mem_append, Option.mem_toList, Finset.notMem_empty,
    not_false_eq_true, and_true, Option.map_eq_some_iff, headToFrag_get?, idToLoose_get?]
  constructor
  · rintro ⟨id, isParent, ⟨other, isOther, rfl⟩ | ⟨position, ⟨other, isOther, rfl⟩, rfl⟩⟩
    · exact ⟨_, _, isOther, isItem, isParent⟩
    · exact ⟨_, _, isOther, isItem, isParent⟩
  · rintro ⟨first, second, isFirst, isSecond, depends⟩
    rw [isItem] at isSecond
    obtain rfl := Option.some.inj isSecond
    refine ⟨first.head, depends, ?_⟩
    cases first with
    | fragment other => exact Or.inl ⟨other, isFirst, rfl⟩
    | commit other =>
      refine Or.inr ⟨dependency - tree.fragments.map.values.length, ?_⟩
      have isLoose : tree.fragments.map.values.length ≤ dependency := by
        by_contra less
        rw [getElem?_items_of_lt tree (Nat.lt_of_not_le less), Option.map_eq_some_iff] at isFirst
        obtain ⟨_, _, same⟩ := isFirst
        cases same
      rw [Nat.add_sub_cancel' isLoose]
      exact ⟨⟨other, isFirst, rfl⟩, rfl⟩

/-! ### Numbers and items -/

def Names (index : Nat) (item : CommitOrFragment) : Prop := tree.items[index]? = some item

theorem exists_names : (∃ index, tree.Names index item) ↔ tree.Carries item :=
  mem_iff_getElem?.symm.trans tree.mem_items

theorem Names.has (names : tree.Names index item) : tree.Carries item :=
  tree.exists_names.mp ⟨index, names⟩

theorem Names.lt (names : tree.Names index item) :
    index < tree.items.length := (List.getElem?_eq_some_iff.mp names).1

theorem Names.unique {other : Nat} (names : tree.Names index item)
    (isOther : tree.Names other item) : index = other :=
  (List.getElem?_inj names.lt tree.nodup_items).mp (names.trans isOther.symm)

theorem indexLink_of_link {dependency : CommitOrFragment} {name : Nat} (link : tree.Dependency dependency item)
    (isName : tree.Names name item) : ∃ other, tree.Names other dependency ∧ tree.IndexLink other name := by
  obtain ⟨other, isOther⟩ := tree.exists_names.mpr link.1
  exact ⟨other, isOther, dependency, item, isOther, isName, link.2.2⟩

theorem link_of_indexLink {dependency item : Nat} {value : CommitOrFragment}
    (link : tree.IndexLink dependency item) (isName : tree.Names item value) :
    ∃ other, tree.Names dependency other ∧ tree.Dependency other value := by
  obtain ⟨first, second, isFirst, isSecond, depends⟩ := link
  obtain rfl : second = value := Option.some.inj (isSecond.symm.trans isName)
  exact ⟨first, isFirst, Names.has tree isFirst, isName.has, depends⟩

theorem deep_indexLink_iff (isName : tree.Names index item)
    (steps : Nat) : Kahn.Deep tree.IndexLink steps index ↔ Kahn.Deep tree.Dependency steps item := by
  constructor
  · exact fun deep => deep.rename (fun item index => tree.Names index item)
      (fun _ _ _ link isName => tree.link_of_indexLink link isName) isName
  · exact fun deep => deep.rename tree.Names
      (fun _ _ _ link isName => tree.indexLink_of_link link isName) isName

theorem acyclic_indexLink_iff : (∀ index, ¬ TransGen tree.IndexLink index index) ↔ tree.Acyclic := by
  constructor
  · intro acyclic item cycle
    have numbered {first last : CommitOrFragment} (path : TransGen tree.Dependency first last) :
        ∀ index other, tree.Names index first → tree.Names other last → TransGen tree.IndexLink index other := by
      induction path with
      | single link =>
        intro index other isIndex isOther
        exact .single ⟨_, _, isIndex, isOther, link.2.2⟩
      | tail _ link ih =>
        intro index other isIndex isOther
        obtain ⟨middle, isMiddle, step⟩ := tree.indexLink_of_link link isOther
        exact (ih index middle isIndex isMiddle).tail step
    obtain ⟨last, -, link⟩ := TransGen.tail'_iff.mp cycle
    obtain ⟨index, isIndex⟩ := tree.exists_names.mpr link.2.1
    exact acyclic index (numbered cycle index index isIndex isIndex)
  · intro acyclic index cycle
    have named {first last : Nat} (path : TransGen tree.IndexLink first last) :
        ∀ item, tree.Names last item → ∃ other, tree.Names first other ∧ TransGen tree.Dependency other item := by
      induction path with
      | single link =>
        intro item isItem
        obtain ⟨other, isOther, link⟩ := tree.link_of_indexLink link isItem
        exact ⟨other, isOther, .single link⟩
      | tail _ link ih =>
        intro item isItem
        obtain ⟨middle, isMiddle, link⟩ := tree.link_of_indexLink link isItem
        obtain ⟨other, isOther, path⟩ := ih middle isMiddle
        exact ⟨other, isOther, path.tail link⟩
    obtain ⟨last, -, link⟩ := TransGen.tail'_iff.mp cycle
    obtain ⟨_, item, _, isItem, _⟩ := link
    obtain ⟨other, isOther, path⟩ := named cycle item isItem
    obtain rfl : other = item := Option.some.inj (isOther.symm.trans isItem)
    exact acyclic other path

/-! ### The sort -/

/-- **The sort of the numbers** returns, and the line it leaves is one of the dependencies. -/
theorem exists_sorted : ∃ edges order,
    Kahn.sort (List.range tree.items.length) tree.dependencyLedger = some order ∧
      Kahn.Line (List.range tree.items.length) edges order [] ∧
      (∀ edge ∈ edges, edge.1 ∈ List.range tree.items.length ∧ edge.2 ∈ List.range tree.items.length) ∧
      Kahn.Linked edges = tree.IndexLink := by
  obtain ⟨edges, order, sorted, line, inside, isEdge⟩ := tree.dependencyLedger_lists.sort_spec
    (fun dependency item ⟨first, _, isFirst, _⟩ => Names.lt tree isFirst)
  refine ⟨edges, order, sorted, line, inside, ?_⟩
  funext dependency item
  refine propext ((isEdge dependency item).trans (and_iff_right_of_imp ?_))
  rintro ⟨_, _, -, isItem, -⟩
  exact Names.lt tree isItem

theorem topsortedBlobOrder_eq {order : List Nat}
    (sorted : Kahn.sort (List.range tree.items.length) tree.dependencyLedger = some order) :
    tree.topsortedBlobOrder = if order.length = tree.items.length then
        some (.ok (order.map (itemOf tree.fragments.map.values.length)))
      else some (.error ⟨tree.items.length, order.length⟩) := by
  unfold topsortedBlobOrder
  rw [length_items] at sorted ⊢
  dsimp only
  rw [sorted]
  by_cases none : tree.fragments.map.values.length + tree.commits.map.values.length = 0
  · rw [none] at sorted ⊢
    obtain rfl : [] = order := Option.some.inj sorted
    rfl
  · rw [if_neg none]
    by_cases full : order.length = tree.fragments.map.values.length + tree.commits.map.values.length
    · simp only [full, ne_eq, not_true_eq_false, if_false, if_true]
    · simp only [full, ne_eq, not_false_eq_true, if_false, if_true]

theorem map_resolve (order : List Nat) :
    (order.map (itemOf tree.fragments.map.values.length)).map tree.resolve =
      order.map fun index => tree.items[index]? := by
  rw [List.map_map]
  exact List.map_congr_left fun index _ => tree.resolve_itemOf index

section Complete

variable {edges : List (Nat × Nat)} {order : List Nat}

variable (line : Kahn.Line (List.range tree.items.length) edges order [])

include line

theorem mem_of_full
    (full : order.length = tree.items.length) {index : Nat} : index ∈ order ↔ index < tree.items.length := by
  have nodup := line.nodup
  have mem_iff := line.mem_iff
  simp only [append_nil] at nodup mem_iff
  have subset : order ⊆ List.range tree.items.length := fun index member => ((mem_iff index).mp member).1
  rw [← mem_range]
  refine ((nodup.subperm subset).perm_of_length_le ?_).mem_iff
  rw [length_range, full]

theorem injOn_items (full : order.length = tree.items.length) :
    Set.InjOn (fun index => tree.items[index]?) {index | index ∈ order} := by
  intro first isFirst second _ same
  exact (List.getElem?_inj ((tree.mem_of_full line full).mp isFirst) tree.nodup_items).mp same

theorem before_resolved_iff
    (full : order.length = tree.items.length) {first second : Nat} {item other : CommitOrFragment}
    (isFirst : tree.Names first item) (isSecond : tree.Names second other) :
    Kahn.Before ((order.map (itemOf tree.fragments.map.values.length)).map tree.resolve) (some item)
      (some other) ↔ Kahn.Before order first second := by
  rw [map_resolve, ← isFirst, ← isSecond]
  exact Kahn.Before.map_iff ((tree.mem_of_full line full).mpr isFirst.lt)
    ((tree.mem_of_full line full).mpr isSecond.lt) (tree.injOn_items line full)

theorem isTopological_of_full
    (linked : Kahn.Linked edges = tree.IndexLink) (full : order.length = tree.items.length) :
    tree.IsTopological (order.map (itemOf tree.fragments.map.values.length)) := by
  have nodup := line.nodup
  have ordered := line.ordered
  simp only [append_nil] at nodup ordered
  refine ⟨?_, fun entry => ?_, fun dependency item link => ?_⟩
  · rw [map_resolve]
    exact nodup.map_on fun first isFirst second isSecond same =>
      tree.injOn_items line full isFirst isSecond same
  · rw [map_resolve, mem_map]
    constructor
    · rintro ⟨index, member, rfl⟩
      obtain ⟨item, isItem⟩ : ∃ item, tree.items[index]? = some item :=
        ⟨_, List.getElem?_eq_getElem ((tree.mem_of_full line full).mp member)⟩
      exact ⟨item, Names.has tree isItem, isItem⟩
    · rintro ⟨item, has, rfl⟩
      obtain ⟨index, isIndex⟩ := tree.exists_names.mpr has
      exact ⟨index, (tree.mem_of_full line full).mpr isIndex.lt, isIndex⟩
  · obtain ⟨index, isIndex⟩ := tree.exists_names.mpr link.2.1
    obtain ⟨other, isOther, indexLink⟩ := tree.indexLink_of_link link isIndex
    refine (tree.before_resolved_iff line full isOther isIndex).mpr ?_
    refine ordered other index ?_ ((tree.mem_of_full line full).mpr isIndex.lt)
    show Kahn.Linked edges other index
    rwa [linked]

end Complete

theorem full_iff {edges : List (Nat × Nat)} {order : List Nat}
    (line : Kahn.Line (List.range tree.items.length) edges order [])
    (inside : ∀ edge ∈ edges, edge.1 ∈ List.range tree.items.length ∧ edge.2 ∈ List.range tree.items.length)
    (linked : Kahn.Linked edges = tree.IndexLink) : order.length = tree.items.length ↔ tree.Acyclic := by
  have full := line.length_eq_iff nodup_range inside
  rwa [length_range, linked, acyclic_indexLink_iff] at full

theorem exists_order (acyclic : tree.Acyclic) :
    ∃ order, tree.topsortedBlobOrder = some (.ok order) ∧ tree.IsTopological order := by
  obtain ⟨edges, order, sorted, line, inside, linked⟩ := tree.exists_sorted
  have full := (tree.full_iff line inside linked).mpr acyclic
  rw [tree.topsortedBlobOrder_eq sorted, if_pos full]
  exact ⟨_, rfl, tree.isTopological_of_full line linked full⟩

/-- **The sort of a tree.** Without a cycle it returns an order of the items; with one it returns the error,
which has the number of the items and a smaller number of those that were sorted. No counter falls below
zero. -/
theorem topsortedBlobOrder_spec :
    (tree.Acyclic → ∃ order, tree.topsortedBlobOrder = some (.ok order) ∧ tree.IsTopological order) ∧
    (¬ tree.Acyclic → ∃ error, tree.topsortedBlobOrder = some (.error error) ∧
      error.total = tree.items.length ∧ error.sorted < error.total) := by
  refine ⟨tree.exists_order, fun cyclic => ?_⟩
  obtain ⟨edges, order, sorted, line, inside, linked⟩ := tree.exists_sorted
  have short : order.length ≠ tree.items.length := fun full =>
    cyclic ((tree.full_iff line inside linked).mp full)
  rw [tree.topsortedBlobOrder_eq sorted, if_neg short]
  refine ⟨_, rfl, rfl, lt_of_le_of_ne ?_ short⟩
  have nodup := line.nodup
  have mem_iff := line.mem_iff
  simp only [List.append_nil] at nodup mem_iff
  have subset : order ⊆ List.range tree.items.length := fun index member => ((mem_iff index).mp member).1
  exact (nodup.subperm subset).length_le.trans_eq List.length_range

/-! ### Boundary commits that are loose -/

section

variable (sorted : tree.topsortedBlobOrder = some (.ok order))

include sorted

theorem exists_full :
    ∃ edges numbers, order = numbers.map (itemOf tree.fragments.map.values.length) ∧
      Kahn.Line (List.range tree.items.length) edges numbers [] ∧
      (∀ edge ∈ edges, edge.1 ∈ List.range tree.items.length ∧ edge.2 ∈ List.range tree.items.length) ∧
      Kahn.Linked edges = tree.IndexLink ∧ numbers.length = tree.items.length := by
  obtain ⟨edges, numbers, isSort, line, inside, linked⟩ := tree.exists_sorted
  rw [tree.topsortedBlobOrder_eq isSort] at sorted
  by_cases full : numbers.length = tree.items.length
  · rw [if_pos full] at sorted
    have isOrder := Except.ok.inj (Option.some.inj sorted)
    exact ⟨edges, numbers, isOrder.symm, line, inside, linked, full⟩
  · rw [if_neg full] at sorted
    cases Option.some.inj sorted

theorem acyclic_of_sorted : tree.Acyclic ∧ tree.IsTopological order := by
  obtain ⟨edges, numbers, rfl, line, inside, linked, full⟩ := tree.exists_full sorted
  exact ⟨(tree.full_iff line inside linked).mp full, tree.isTopological_of_full line linked full⟩

theorem before_of_deeper
    {other : CommitOrFragment} (hasItem : tree.Carries item) (hasOther : tree.Carries other) {steps : Nat}
    (deep : Kahn.Deep tree.Dependency steps other) (shallow : ¬ Kahn.Deep tree.Dependency steps item) :
    Kahn.Before (order.map tree.resolve) (some item) (some other) := by
  obtain ⟨edges, numbers, rfl, line, inside, linked, full⟩ := tree.exists_full sorted
  obtain ⟨index, isIndex⟩ := tree.exists_names.mpr hasItem
  obtain ⟨otherIndex, isOther⟩ := tree.exists_names.mpr hasOther
  rw [← tree.deep_indexLink_iff isIndex, ← linked] at shallow
  rw [← tree.deep_indexLink_iff isOther, ← linked] at deep
  exact (tree.before_resolved_iff line full isIndex isOther).mpr (line.before_of_deep
    (mem_range.mpr isIndex.lt) ((tree.mem_of_full line full).mpr isOther.lt) deep shallow inside)

end

theorem exists_longest (acyclic : tree.Acyclic) (has : tree.Carries item) :
    ∃ steps, Kahn.Deep tree.Dependency steps item ∧ ¬ Kahn.Deep tree.Dependency (steps + 1) item := by
  obtain ⟨order, sorted, -⟩ := tree.exists_order acyclic
  obtain ⟨edges, numbers, -, line, -, linked, full⟩ := tree.exists_full sorted
  obtain ⟨index, isIndex⟩ := tree.exists_names.mpr has
  have bounded (steps : Nat) (deep : Kahn.Deep tree.Dependency steps item) : steps ≤ numbers.idxOf index := by
    refine line.le_idxOf_of_deep ((tree.mem_of_full line full).mpr isIndex.lt) ?_
    rw [linked]
    exact (tree.deep_indexLink_iff isIndex steps).mpr deep
  classical
  have exists_shallow : ∃ steps, ¬ Kahn.Deep tree.Dependency steps item :=
    ⟨numbers.idxOf index + 1, fun deep => Nat.not_succ_le_self _ (bounded _ deep)⟩
  have least := Nat.find_spec exists_shallow
  cases found : Nat.find exists_shallow with
  | zero =>
    rw [found] at least
    exact absurd trivial least
  | succ steps =>
    rw [found] at least
    exact ⟨steps, not_not.mp (Nat.find_min exists_shallow (found ▸ Nat.lt_succ_self steps)), least⟩

theorem Names.lt_iff (names : tree.Names index item) :
    index < tree.fragments.map.values.length ↔ ∃ fragment, item = .fragment fragment := by
  constructor
  · intro less
    unfold Names at names
    rw [getElem?_items_of_lt tree less, Option.map_eq_some_iff] at names
    obtain ⟨fragment, -, same⟩ := names
    exact ⟨fragment, same.symm⟩
  · rintro ⟨fragment, rfl⟩
    by_contra notLess
    obtain ⟨rest, rfl⟩ := Nat.exists_eq_add_of_le (Nat.le_of_not_lt notLess)
    unfold Names at names
    rw [getElem?_items_add, Option.map_eq_some_iff] at names
    obtain ⟨_, _, same⟩ := names
    cases same

theorem Names.head_at {fragment : Fragment} (names : tree.Names index (.fragment fragment)) :
    (IterOrder.list tree.fragments.map.keys)[index]? = some fragment.head := by
  have less := (Names.lt_iff tree names).mpr ⟨fragment, rfl⟩
  unfold Names at names
  rw [getElem?_items_of_lt tree less, Option.map_eq_some_iff] at names
  obtain ⟨found, atIndex, same⟩ := names
  obtain rfl := CommitOrFragment.fragment.inj same
  rw [← tree.fragments.map_head_values, List.getElem?_map, atIndex]
  rfl

end Sedimentree

def CommitOrFragment.fragmentHead? : CommitOrFragment → Option CommitId
  | .commit _ => none
  | .fragment item => some item.head

namespace Sedimentree

/-- **The last of their length.** When the fragments of a longest chain come last in the iteration order,
every fragment without longer chains comes before the top of the chain. -/
theorem before_top_of_trailing (tree : Sedimentree) {steps : Nat} {top : CommitOrFragment}
    {below : List CommitOrFragment} (trail : Kahn.Trail tree.Dependency steps top below) (isTop : tree.Carries top)
    (longest : ¬ Kahn.Deep tree.Dependency (steps + 1) top) {fragment : Fragment}
    (has : tree.Carries (.fragment fragment)) (shallow : ¬ Kahn.Deep tree.Dependency (steps + 1) (.fragment fragment))
    (different : top ≠ .fragment fragment) (order : List SedimentreeItem) :
    letI : IterOrder CommitId := .trailing (below.filterMap CommitOrFragment.fragmentHead?).toFinset
    tree.topsortedBlobOrder = some (.ok order) →
      Kahn.Before (order.map tree.resolve) (some (.fragment fragment)) (some top) := by
  let last := (below.filterMap CommitOrFragment.fragmentHead?).toFinset
  let _ : IterOrder CommitId := .trailing last
  intro sorted
  obtain ⟨edges, numbers, rfl, line, inside, linked, full⟩ := tree.exists_full sorted
  obtain ⟨index, isIndex⟩ := tree.exists_names.mpr has
  obtain ⟨topIndex, isTopIndex⟩ := tree.exists_names.mpr isTop
  refine (tree.before_resolved_iff line full isIndex isTopIndex).mpr ?_
  obtain ⟨renamed, indexTrail, isItem⟩ := trail.rename tree.Names
    (fun _ _ _ link isName => tree.indexLink_of_link link isName) isTopIndex
  have isHas := trail.forall_mem (fun _ _ link => link.1) isTop
  rw [← linked] at indexTrail
  have result := line.last_of_trail inside (fun index => index < tree.fragments.map.values.length)
    ?closed indexTrail ((tree.mem_of_full line full).mpr isTopIndex.lt) ?longest ?small
    (mem_range.mpr isIndex.lt) ((Names.lt_iff tree isIndex).mpr ⟨fragment, rfl⟩) ?shallow
  · refine result.resolve_left ?_
    rintro rfl
    exact different (Option.some.inj (isTopIndex.symm.trans isIndex))
  case closed =>
    intro dependency item isEdge isFragment
    have link : Kahn.Linked edges dependency item := isEdge
    rw [linked] at link
    obtain ⟨first, second, isFirst, isSecond, depends⟩ := link
    obtain ⟨found, rfl⟩ := (Names.lt_iff tree isSecond).mp isFragment
    cases first with
    | commit commit => exact depends.elim
    | fragment other => exact (Names.lt_iff tree isFirst).mpr ⟨other, rfl⟩
  case longest =>
    rw [linked, tree.deep_indexLink_iff isTopIndex]
    exact longest
  case shallow =>
    rw [linked, tree.deep_indexLink_iff isIndex]
    exact shallow
  case small =>
    intro other isOther item isFragment notOther same
    obtain ⟨value, isBelow, isValue⟩ := isItem other isOther
    by_cases otherFragment : other < tree.fragments.map.values.length
    · obtain ⟨otherValue, rfl⟩ := (Names.lt_iff tree isValue).mp otherFragment
      obtain ⟨itemValue, isItemValue⟩ : ∃ value, tree.Names item value :=
        ⟨_, List.getElem?_eq_getElem (isFragment.trans_le (by rw [length_items]; exact Nat.le_add_right _ _))⟩
      obtain ⟨itemFragment, rfl⟩ := (Names.lt_iff tree isItemValue).mp isFragment
      have late : otherValue.head ∈ last :=
        mem_toFinset.mpr (mem_filterMap.mpr ⟨_, isBelow, rfl⟩)
      refine IterOrder.lt_of_trailing (Names.head_at tree isItemValue) (Names.head_at tree isValue)
        (fun early => notOther ?_) late
      -- a fragment of the chain with chains of the same length is the same one
      obtain ⟨found, foundBelow, foundHead⟩ := mem_filterMap.mp (mem_toFinset.mp early)
      cases found with
      | commit commit => cases foundHead
      | fragment found =>
        have sameHead : found.head = itemFragment.head := Option.some.inj foundHead
        have stored : tree.fragments.map.get? found.head = some found := isHas _ foundBelow
        have storedItem : tree.fragments.map.get? itemFragment.head = some itemFragment := isItemValue.has
        rw [sameHead, storedItem] at stored
        obtain rfl := Option.some.inj stored
        have equal := trail.eq_of_deep_iff longest foundBelow isBelow fun length => by
          rw [← tree.deep_indexLink_iff isItemValue, ← tree.deep_indexLink_iff isValue, ← linked]
          exact same length
        rw [← equal] at isValue
        exact isItemValue.unique tree isValue
    · exact isFragment.trans_le (Nat.le_of_not_lt otherFragment)

/-- **Causally complete in every iteration order**, exactly when the tree has a cycle and no order is
returned, or the loose commits at the boundary of a fragment have shorter chains of dependencies than the
fragment. -/
theorem causallyComplete_iff (tree : Sedimentree) :
    (∀ (_ : IterOrder CommitId) (order : List SedimentreeItem),
      tree.topsortedBlobOrder = some (.ok order) → tree.CausallyComplete order) ↔
    (¬ tree.Acyclic ∨ ∀ fragment commit, tree.Carries (.fragment fragment) → tree.Carries (.commit commit) →
      commit.head ∈ fragment.boundary →
      ∃ steps, Kahn.Deep tree.Dependency steps (.fragment fragment) ∧ ¬ Kahn.Deep tree.Dependency steps (.commit commit)) := by
  constructor
  · intro complete
    by_contra fails
    obtain ⟨acyclic, fails⟩ := not_or.mp fails
    rw [not_not] at acyclic
    simp only [not_forall, not_exists, not_and, not_not] at fails
    obtain ⟨fragment, commit, hasFragment, hasCommit, isBoundary, deeper⟩ := fails
    have refute (iteration : IterOrder CommitId) (before : ∀ order, tree.topsortedBlobOrder = some (.ok order) →
        Kahn.Before (order.map tree.resolve) (some (.fragment fragment)) (some (.commit commit))) : False := by
      obtain ⟨order, sorted, -⟩ := tree.exists_order acyclic
      have after := complete iteration order sorted fragment (.commit commit) hasFragment hasCommit isBoundary
      exact Kahn.Before.irrefl ((before order sorted).trans after)
    obtain ⟨steps, deep, shallow⟩ : ∃ steps, Kahn.Deep tree.Dependency steps (.fragment fragment) ∧
        ¬ Kahn.Deep tree.Dependency (steps + 1) (.fragment fragment) := by
      let _ : IterOrder CommitId := .ascending CommitId
      exact tree.exists_longest acyclic hasFragment
    by_cases longer : Kahn.Deep tree.Dependency (steps + 1) (.commit commit)
    · let _ : IterOrder CommitId := .ascending CommitId
      refine refute (.ascending CommitId) fun order sorted => ?_
      exact tree.before_of_deeper sorted hasFragment hasCommit longer shallow
    · obtain ⟨below, trail⟩ := Kahn.exists_trail (deeper steps deep)
      refine refute (.trailing (below.filterMap CommitOrFragment.fragmentHead?).toFinset) fun order =>
        tree.before_top_of_trailing trail hasCommit longer hasFragment shallow ?_ order
      intro same
      cases same
  · intro condition iteration order sorted fragment item hasFragment hasItem isBoundary
    obtain ⟨acyclic, topological⟩ := tree.acyclic_of_sorted sorted
    cases item with
    | fragment other => exact topological.after _ _ ⟨hasItem, hasFragment, isBoundary⟩
    | commit commit =>
      obtain ⟨steps, deep, shallow⟩ := condition.resolve_left (not_not.mpr acyclic) fragment commit hasFragment
        hasItem isBoundary
      exact tree.before_of_deeper sorted hasItem hasFragment deep shallow

/-! ### A boundary commit that is loose -/

/-- A fragment whose boundary is the loose commit. -/
def looseBoundaryTree [Blake3] [Bijou64] : Sedimentree :=
  .new [Fragment.new ⟨0⟩ (.numbered 2) {.numbered 1} ∅ ⟨⟨0⟩, 0⟩] [⟨⟨0⟩, .numbered 1, ∅, ⟨⟨0⟩, 0⟩⟩]

/-- **The fragment comes before its boundary commit**, which it does not wait for. -/
theorem fragment_before_boundary : letI : IterOrder CommitId := IterOrder.ascending CommitId
    letI : Blake3 := ⟨fun _ => 0⟩
    letI : Bijou64 := ⟨fun _ => []⟩
    looseBoundaryTree.topsortedBlobOrder = some (.ok [.fragment 0, .looseCommit 0]) ∧
      ¬ looseBoundaryTree.CausallyComplete [.fragment 0, .looseCommit 0] := by
  let _ : IterOrder CommitId := IterOrder.ascending CommitId
  let _ : Blake3 := ⟨fun _ => 0⟩
  let _ : Bijou64 := ⟨fun _ => []⟩
  refine ⟨by decide +kernel, fun complete => ?_⟩
  have before := complete (Fragment.new ⟨0⟩ (.numbered 2) {.numbered 1} ∅ ⟨⟨0⟩, 0⟩)
    (.commit ⟨⟨0⟩, .numbered 1, ∅, ⟨⟨0⟩, 0⟩⟩) (by unfold Carries; decide +kernel) (by unfold Carries; decide +kernel)
    (by decide +kernel)
  exact absurd before (by decide +kernel)

end Sedimentree

end Subduction
