/-
**The fragments cover the history below the first heads, each commit on one level.**

On an acyclic store that has the parents of its commits, the builder starts from nothing known. What its
states have together is every commit of positive depth below the given heads with all its ancestors. No
state has a member of a state further up its boundaries.

Main result: `buildFragmentStore_covers`.
-/

import Subduction.Core.Build

set_option linter.unusedSectionVars false

namespace Subduction

open Relation Strata

section Stores

variable {Node LookupError : Type} [Parents Node] [IterOrder CommitId]

namespace CommitStore

/-! ### The graph of a store -/

def Stores (store : CommitStore Node LookupError) (id : CommitId) : Prop :=
  ∃ node, store.lookup id = .ok (some node)

def ParentOf (store : CommitStore Node LookupError) (child parent : CommitId) : Prop :=
  ∃ node, store.lookup child = .ok (some node) ∧ parent ∈ Parents.parents node

/-- **A store without holes**: every lookup is answered, and the parents of a commit are stored. -/
structure ParentComplete (store : CommitStore Node LookupError) : Prop where
  answers : ∀ id, ∃ found, store.lookup id = .ok found
  closed : ∀ child parent, store.ParentOf child parent → store.Stores parent

variable {store : CommitStore Node LookupError} {metric : DepthMetric}

theorem mem_parents_iff {id parent : CommitId} {node : Node} (found : store.lookup id = .ok (some node)) :
    parent ∈ Parents.parents node ↔ store.ParentOf id parent := by
  refine ⟨fun isParent => ⟨node, found, isParent⟩, ?_⟩
  rintro ⟨other, foundOther, isParent⟩
  obtain rfl := Option.some.inj (Except.ok.inj (found.symm.trans foundOther))
  exact isParent

theorem ParentComplete.serves (complete : store.ParentComplete) : store.Serves store.ParentOf store.Stores where
  found := fun id ⟨node, found⟩ => ⟨node, found, fun _ => mem_parents_iff found⟩
  missing := by
    intro id missing
    obtain ⟨found, answer⟩ := complete.answers id
    cases found with
    | none => exact answer
    | some node => exact absurd ⟨node, answer⟩ missing
  closed := fun child parent _ isParent => complete.closed child parent isParent

theorem founded_parentOf (store : CommitStore Node LookupError)
    (acyclic : ∀ id, ¬ TransGen store.ParentOf id id) : WellFounded (Function.swap store.ParentOf) :=
  founded_of_acyclic store.ids (fun _ _ ⟨_, found, _⟩ => store.mem_ids found) acyclic

/-! ### Coverage -/

section Covers

variable {edge : CommitId → CommitId → Prop} {within : CommitId → Prop} {heads : CommitId → Prop}
  {keys : Finset CommitId}

theorem exists_span_of_edge (rim : ∀ a ∈ keys, ∀ b, Rim edge metric a b → b ∈ keys) {x y : CommitId}
    (spanned : ∃ a ∈ keys, Span edge metric a x) (step : edge x y) : ∃ a ∈ keys, Span edge metric a y := by
  obtain ⟨a, isKey, spans⟩ := spanned
  rcases spans.step step with spans | isRim
  · exact ⟨a, isKey, spans⟩
  · exact ⟨y, rim a isKey y isRim, .refl⟩

theorem mem_keys_of_above (rim : ∀ a ∈ keys, ∀ b, Rim edge metric a b → b ∈ keys) {a g : CommitId}
    (isKey : a ∈ keys) (above : Above edge metric a g) : g ∈ keys := by
  induction above with
  | single step => exact rim a isKey _ step
  | tail _ step ih => exact rim _ ih _ step

theorem exists_span_of_path (serves : store.Serves edge within)
    (keysIff : ∀ a, a ∈ keys ↔ within a ∧ 0 < metric a ∧
      ∃ root, heads root ∧ ReflTransGen (BuildEdge edge within metric) root a)
    (rim : ∀ a ∈ keys, ∀ b, Rim edge metric a b → b ∈ keys) {root y : CommitId} (isRoot : heads root)
    (inside : within root) (path : ReflTransGen edge root y) :
    ReflTransGen (BuildEdge edge within metric) root y ∨ ∃ a ∈ keys, Span edge metric a y := by
  induction path with
  | refl => exact Or.inl .refl
  | @tail y z path step ih =>
    rcases ih with walked | spanned
    · have here : within y := serves.reach inside path
      by_cases positive : 0 < metric y
      · -- the walk built this head, so the step is to its span or its rim
        have isKey : y ∈ keys := (keysIff y).mpr ⟨here, positive, root, isRoot, walked⟩
        exact Or.inr (exists_span_of_edge rim ⟨y, isKey, .refl⟩ step)
      · refine Or.inl (walked.tail ⟨here, ?_⟩)
        rwa [if_neg positive]
    · exact Or.inr (exists_span_of_edge rim spanned step)

theorem BuildEdge.path {a b : CommitId} (step : BuildEdge edge within metric a b) : ReflTransGen edge a b := by
  obtain ⟨-, step⟩ := step
  by_cases positive : 0 < metric a
  · rw [if_pos positive] at step
    exact step.path.to_reflTransGen
  · rw [if_neg positive] at step
    exact .single step

theorem path_of_walk {root a : CommitId} (walked : ReflTransGen (BuildEdge edge within metric) root a) :
    ReflTransGen edge root a := by
  induction walked with
  | refl => exact .refl
  | tail _ step ih => exact ih.trans step.path

end Covers

section Builder

/-- **What the builder builds from nothing.** The members of its states are together the commits of positive
depth below the heads and all their ancestors. The members of a state are apart from those of every state up
its boundaries. Boundary commits are at least as deep as the head, and the checkpoints are the members of a
positive depth below the head's. -/
theorem buildFragmentStore_covers (store : CommitStore Node LookupError) (complete : store.ParentComplete)
    (acyclic : ∀ id, ¬ TransGen store.ParentOf id id) (metric : DepthMetric) (headIds : List CommitId) :
    ∃ known fresh, store.buildFragmentStore headIds ∅ metric = (known, .ok fresh) ∧
      (∀ x, (∃ a state, known.get? a = some state ∧ x ∈ state.members) ↔
        ∃ root ∈ headIds, ∃ top, ReflTransGen store.ParentOf root top ∧ store.Stores top ∧ 0 < metric top ∧
          ReflTransGen store.ParentOf top x) ∧
      (∀ a state g other, known.get? a = some state → TransGen (FragmentState.BoundaryStep known) a g →
        known.get? g = some other → Disjoint state.members other.members) ∧
      (∀ a state, known.get? a = some state →
        (∀ b ∈ state.boundary.keys, metric state.headId ≤ metric b) ∧
        ∀ x, x ∈ state.checkpoints ↔ x ∈ state.members ∧ 0 < metric x ∧ metric x < metric state.headId) := by
  have serves := complete.serves
  have founded := store.founded_parentOf acyclic
  obtain ⟨known, fresh, runs, keysIff, rim, canonical⟩ :=
    buildFragmentStore_canonical serves founded headIds metric
  refine ⟨known, fresh, runs, fun x => ?_, fun a state g other found path foundOther => ?_,
    fun a state found => ?_⟩
  · constructor
    · rintro ⟨a, state, found, member⟩
      obtain ⟨inside, positive, root, isRoot, walked⟩ := (keysIff a).mp (FinMap.mem_keys_of_get? found)
      have owned := ((canonical a state found).members x).mp member
      exact ⟨root, isRoot, a, path_of_walk walked, inside, positive, owned.1.path⟩
    · rintro ⟨root, isRoot, top, path, isStored, positive, below⟩
      have insideRoot : store.Stores root := by
        rcases path.cases_head with rfl | ⟨_, ⟨node, found, _⟩, _⟩
        · exact isStored
        · exact ⟨node, found⟩
      have spannedTop : ∃ a ∈ known.keys, Span store.ParentOf metric a top := by
        rcases exists_span_of_path serves keysIff rim isRoot insideRoot path with walked | spanned
        · exact ⟨top, (keysIff top).mpr ⟨isStored, positive, root, isRoot, walked⟩, .refl⟩
        · exact spanned
      have spanned : ∃ a ∈ known.keys, Span store.ParentOf metric a x := by
        induction below with
        | refl => exact spannedTop
        | tail _ step ih => exact exists_span_of_edge rim ih step
      -- the last head of the chain that spans the commit has it
      obtain ⟨a, isKey, spans⟩ := spanned
      obtain ⟨owner, place, owned⟩ := spans.owner founded
      have isOwner : owner ∈ known.keys := by
        rcases place with rfl | above
        · exact isKey
        · exact mem_keys_of_above rim isKey above
      obtain ⟨state, found⟩ := FinMap.mem_keys.mp isOwner
      exact ⟨owner, state, found, ((canonical owner state found).members x).mpr owned⟩
  · have above : Above store.ParentOf metric a g := by
      refine TransGen.mono (fun b c ⟨between, foundBetween, isBoundary⟩ => ?_) _ _ path
      exact ((canonical b between foundBetween).boundary c).mp isBoundary
    refine Finset.disjoint_left.mpr fun x member memberOther => ?_
    have owned := ((canonical a state found).members x).mp member
    exact owned.2 g above (((canonical g other foundOther).members x).mp memberOther).1
  · have isCanonical := canonical a state found
    rw [isCanonical.headId]
    refine ⟨fun b isBoundary => ((isCanonical.boundary b).mp isBoundary).choose_spec.2.2, fun x => ?_⟩
    rw [isCanonical.checkpoints, isCanonical.members]
    exact Iff.rfl

end Builder

end CommitStore

end Stores

/-! ### A commit below two heads -/

/-- The parents of three commits: the first one is below the second one, and both are below the third. -/
def sharedParents (id : CommitId) : Option (Finset CommitId) :=
  if id = .numbered 3 then some {.numbered 1, .numbered 2}
  else if id = .numbered 2 then some {.numbered 1}
  else if id = .numbered 1 then some ∅
  else none

theorem mem_of_sharedParents {id : CommitId} {parents : Finset CommitId} (found : sharedParents id = some parents) :
    id ∈ ({.numbered 1, .numbered 2, .numbered 3} : Finset CommitId) ∧
      ∀ parent ∈ parents, (sharedParents parent).isSome ∧ parent < id := by
  unfold sharedParents at found
  split_ifs at found with third second first
  · obtain rfl := Option.some.inj found
    subst third
    decide +kernel
  · obtain rfl := Option.some.inj found
    subst second
    decide +kernel
  · obtain rfl := Option.some.inj found
    subst first
    decide +kernel

def sharedStore : CommitStore (Finset CommitId) Unit where
  lookup id := .ok (sharedParents id)
  ids := {.numbered 1, .numbered 2, .numbered 3}
  mem_ids found := (mem_of_sharedParents (Except.ok.inj found)).1

def sharedDepth : DepthMetric := fun id => if id = .numbered 2 ∨ id = .numbered 3 then 1 else 0

theorem sharedStore_parentOf {child parent : CommitId} (isParent : sharedStore.ParentOf child parent) :
    sharedStore.Stores parent ∧ parent < child := by
  obtain ⟨parents, found, member⟩ := isParent
  obtain ⟨present, less⟩ := (mem_of_sharedParents (Except.ok.inj found)).2 parent member
  obtain ⟨node, stored⟩ := Option.isSome_iff_exists.mp present
  exact ⟨⟨node, congrArg Except.ok stored⟩, less⟩

theorem sharedStore_parentComplete : sharedStore.ParentComplete :=
  ⟨fun id => ⟨sharedParents id, rfl⟩, fun _ _ isParent => (sharedStore_parentOf isParent).1⟩

theorem sharedStore_acyclic (id : CommitId) : ¬ TransGen sharedStore.ParentOf id id := by
  have less {first last : CommitId} (path : TransGen sharedStore.ParentOf first last) : last < first := by
    induction path with
    | single step => exact (sharedStore_parentOf step).2
    | tail _ step ih => exact (sharedStore_parentOf step).2.trans ih
  exact fun cycle => lt_irrefl id (less cycle)

theorem shared_covered : letI : IterOrder CommitId := IterOrder.ascending CommitId
    ∃ known fresh, sharedStore.buildFragmentStore [.numbered 3] ∅ sharedDepth = (known, .ok fresh) ∧
      ∃ a state, known.get? a = some state ∧ .numbered 1 ∈ state.members := by
  let _ : IterOrder CommitId := IterOrder.ascending CommitId
  obtain ⟨known, fresh, runs, covers, -⟩ := CommitStore.buildFragmentStore_covers sharedStore
    sharedStore_parentComplete sharedStore_acyclic sharedDepth [.numbered 3]
  refine ⟨known, fresh, runs, (covers _).mpr ⟨.numbered 3, List.mem_cons_self, .numbered 3, .refl,
    ⟨_, rfl⟩, by decide +kernel, .single ⟨_, rfl, by decide +kernel⟩⟩⟩

end Subduction
