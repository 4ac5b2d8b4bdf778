/-
**What the fragment builder builds.**

The builder starts from any map of known fragments. While it runs, the states it was given are as
they were and the others are drafts: the rim of their head, and members between its span and its
span without what a fragment up the boundary chain claims. The post-pass takes that out.

* **`buildFragmentStore_eq_finish`** — the walk of the builder, from any known map: it succeeds and
  drafts every head it reaches.
* **`buildFragmentStore_extends`**, **`buildFragmentStore_canonical`** — from canonical states, or from
  nothing known, every state is canonical. Neither the order of the heads nor that of an iteration
  has an influence.
* **`BuildResult.finish`**.
-/

import Subduction.Core.Stratum

set_option linter.unusedSectionVars false

namespace Subduction

open Relation Strata IterOrder FinMap Finset

variable {Node LookupError : Type} [Parents Node] [IterOrder CommitId]

namespace CommitStore

variable {store : CommitStore Node LookupError} {edge : CommitId → CommitId → Prop}
  {within : CommitId → Prop} {metric : DepthMetric}

/-! ### The states while a builder runs -/

section

variable (edge : CommitId → CommitId → Prop) (metric : DepthMetric)

/-- **The canonical state of a head**: its members are what the head owns. -/
structure Canonical (head : CommitId) (state : FragmentState Node) : Prop where
  headId : state.headId = head
  boundary : ∀ b, b ∈ state.boundary.keys ↔ Rim edge metric head b
  members : ∀ x, x ∈ state.members ↔ Owned edge metric head x
  checkpoints : ∀ x, x ∈ state.checkpoints ↔ Point edge metric head x

/-- What the fragment of `g` claims: the members of a state that was known before, the span of a
head that was not. -/
def Claims (old : FinMap CommitId (FragmentState Node)) (g x : CommitId) : Prop :=
  match old.get? g with
  | some state => x ∈ state.members
  | none => Span edge metric g x

/-- A fragment up the boundary chain of `a` claims `x`. -/
def ClaimedAbove (old known : FinMap CommitId (FragmentState Node)) (a x : CommitId) : Prop :=
  ∃ g, TransGen (FragmentState.BoundaryStep known) a g ∧
    (g ∈ known.keys ∧ Claims edge metric old g x)

end

/-- **A state under construction**: the rim of its head, and members between the span and the span
without what is claimed further up. -/
structure Draft (store : CommitStore Node LookupError) (edge : CommitId → CommitId → Prop)
    (metric : DepthMetric) (old known : FinMap CommitId (FragmentState Node)) (head : CommitId)
    (state : FragmentState Node) : Prop where
  headId : state.headId = head
  boundary : ∀ b, b ∈ state.boundary.keys ↔ Rim edge metric head b
  nodes : ∀ b node, state.boundary.get? b = some node → store.lookup b = .ok (some node)
  lower : ∀ x, Span edge metric head x → x ∈ state.members ∨ ClaimedAbove edge metric old known head x
  upper : ∀ x, x ∈ state.members → Span edge metric head x
  checkpoints : ∀ x, x ∈ state.checkpoints ↔
    x ∈ state.members ∧ 0 < metric x ∧ metric x < metric head

/-- **The states while a builder runs**: those known before are as they were, the others are drafts. -/
structure Drafted (store : CommitStore Node LookupError) (edge : CommitId → CommitId → Prop)
    (metric : DepthMetric) (old known : FinMap CommitId (FragmentState Node)) : Prop where
  kept : ∀ a state, old.get? a = some state → known.get? a = some state
  draft : ∀ a state, known.get? a = some state → a ∉ old.keys →
    Draft store edge metric old known a state

section Drafts

variable {old known : FinMap CommitId (FragmentState Node)}

theorem claims_of_unknown {g x : CommitId} (unknown : g ∉ old.keys) :
    Claims edge metric old g x ↔ Span edge metric g x := by
  unfold Claims
  rw [FinMap.get?_eq_none.mpr unknown]

theorem ClaimedAbove.mono {larger : FinMap CommitId (FragmentState Node)} {a x : CommitId}
    (claimed : ClaimedAbove edge metric old known a x)
    (grows : ∀ b state, known.get? b = some state → larger.get? b = some state) :
    ClaimedAbove edge metric old larger a x := by
  obtain ⟨g, path, isKey, claims⟩ := claimed
  obtain ⟨state, found⟩ := mem_keys.mp isKey
  refine ⟨g, TransGen.mono ?_ _ _ path, mem_keys_of_get? (grows g state found), claims⟩
  rintro b c ⟨other, foundOther, member⟩
  exact ⟨other, grows b other foundOther, member⟩

theorem claimedAbove_congr {other : FinMap CommitId (FragmentState Node)}
    (keys : known.keys = other.keys)
    (steps : ∀ a b, FragmentState.BoundaryStep known a b ↔ FragmentState.BoundaryStep other a b)
    (a x : CommitId) :
    ClaimedAbove edge metric old known a x ↔ ClaimedAbove edge metric old other a x := by
  have same : FragmentState.BoundaryStep known = FragmentState.BoundaryStep other :=
    funext fun a => funext fun b => propext (steps a b)
  unfold ClaimedAbove
  rw [same, keys]

theorem Drafted.start (store : CommitStore Node LookupError) (edge : CommitId → CommitId → Prop)
    (metric : DepthMetric) (old : FinMap CommitId (FragmentState Node)) :
    Drafted store edge metric old old :=
  ⟨fun _ _ found => found, fun _ _ found unknown => absurd (mem_keys_of_get? found) unknown⟩

variable (drafted : Drafted store edge metric old known)

include drafted

theorem Drafted.claims {g x : CommitId}
    {state : FragmentState Node} (found : known.get? g = some state) (member : x ∈ state.members) :
    Claims edge metric old g x := by
  by_cases before : g ∈ old.keys
  · obtain ⟨first, foundFirst⟩ := mem_keys.mp before
    have same := Option.some.inj ((drafted.kept g first foundFirst).symm.trans found)
    unfold Claims
    rw [foundFirst, same]
    exact member
  · rw [claims_of_unknown before]
    exact (drafted.draft g state found before).upper x member

theorem Drafted.boundaryStep_iff (a b : CommitId) :
    FragmentState.BoundaryStep known a b ↔ FragmentState.BoundaryStep old a b ∨
      (a ∈ known.keys ∧ a ∉ old.keys) ∧ Rim edge metric a b := by
  constructor
  · rintro ⟨state, found, member⟩
    by_cases before : a ∈ old.keys
    · obtain ⟨first, foundFirst⟩ := mem_keys.mp before
      have same := Option.some.inj ((drafted.kept a first foundFirst).symm.trans found)
      exact Or.inl ⟨first, foundFirst, same ▸ member⟩
    · exact Or.inr ⟨⟨mem_keys_of_get? found, before⟩,
        ((drafted.draft a state found before).boundary b).mp member⟩
  · rintro (⟨state, found, member⟩ | ⟨⟨isKey, fresh⟩, rim⟩)
    · exact ⟨state, drafted.kept a state found, member⟩
    · obtain ⟨state, found⟩ := mem_keys.mp isKey
      exact ⟨state, found, ((drafted.draft a state found fresh).boundary b).mpr rim⟩

theorem Drafted.insert {snapshot : FinMap CommitId (FragmentState Node)}
    (before : Drafted store edge metric old snapshot)
    (grows : ∀ b state, snapshot.get? b = some state → known.get? b = some state)
    (serves : store.Serves edge within) (founded : WellFounded (Function.swap edge))
    {head : CommitId} {state : FragmentState Node} (inside : within head) (positive : 0 < metric head)
    (built : store.fragment head snapshot metric = .ok state)
    (again : ∀ other, known.get? head = some other → other = state) :
    Drafted store edge metric old (known.insert head state) := by
  obtain ⟨same, builtSame, headId, boundary, members, checkpoints⟩ :=
    fragment_eq_ok serves founded inside positive snapshot
  obtain rfl := Except.ok.inj (builtSame.symm.trans built)
  have larger : ∀ b other, known.get? b = some other →
      (known.insert head same).get? b = some other := by
    intro b other found
    rw [FinMap.get?_insert]
    by_cases isHead : b = head
    · rw [if_pos isHead, again other (isHead ▸ found)]
    · rw [if_neg isHead, found]
  refine ⟨fun a other found => larger a other (drafted.kept a other found), ?_⟩
  intro a other found unknown
  rcases of_get?_insert found with ⟨rfl, rfl⟩ | ⟨-, older⟩
  · refine ⟨headId, boundary, fun b node => fragment_nodes built, fun x spans => ?_,
      fun x member => ((members x).mp member).1, checkpoints⟩
    by_cases stripped : x ∈ knownMembers snapshot other.boundary.keys
    · obtain ⟨b, atBoundary, lower, foundLower, member⟩ := mem_knownMembers.mp stripped
      refine Or.inr ⟨b, .single ⟨other, FinMap.get?_insert_self _ _ _, atBoundary⟩,
        mem_keys_of_get? (larger b lower (grows b lower foundLower)), ?_⟩
      exact before.claims foundLower member
    · exact Or.inl ((members x).mpr ⟨spans, stripped⟩)
  · have draft := drafted.draft a other older unknown
    exact { draft with
      lower := fun x spans => (draft.lower x spans).imp_right fun claimed => claimed.mono larger }

end Drafts

/-! ### The walk of the builder -/

/-- Where the walk of the builder goes from a commit that is found: to the rim of a fragment head,
to the parents of a commit of depth zero. -/
def BuildEdge (edge : CommitId → CommitId → Prop) (within : CommitId → Prop) (metric : DepthMetric)
    (a b : CommitId) : Prop :=
  within a ∧ if 0 < metric a then Rim edge metric a b else edge a b

/-- **Where the walk of the builder goes**: past a known fragment to its boundary, otherwise along the
graph. -/
def Leads (edge : CommitId → CommitId → Prop) (within : CommitId → Prop) (metric : DepthMetric)
    (old : FinMap CommitId (FragmentState Node)) (a b : CommitId) : Prop :=
  match old.get? a with
  | some state => b ∈ state.boundary.keys
  | none => BuildEdge edge within metric a b

/-- The invariant of the walk of `build_fragment_store`. -/
structure BuildInv (store : CommitStore Node LookupError) (edge : CommitId → CommitId → Prop)
    (within : CommitId → Prop) (metric : DepthMetric) (old : FinMap CommitId (FragmentState Node))
    (headIds : List CommitId) (stack : List CommitId) (seen : Finset CommitId) (build : Build Node) :
    Prop where
  frontier : Worklist.Frontier (Leads edge within metric old) (· ∈ headIds) stack seen
  keys : ∀ a, a ∈ build.known.keys ↔ a ∈ old.keys ∨ a ∈ seen ∧ within a ∧ 0 < metric a
  drafted : Drafted store edge metric old build.known
  fresh : ∀ a, a ∈ build.freshHeads ↔ a ∈ build.known.keys ∧ a ∉ old.keys
  nodup : build.freshHeads.Nodup

section Walk

variable {old : FinMap CommitId (FragmentState Node)} {headIds : List CommitId} {b : CommitId}
  {stack : List CommitId} {seen : Finset CommitId} {build : Build Node}

theorem leads_of_known {state : FragmentState Node} (found : old.get? b = some state) (c : CommitId) :
    Leads edge within metric old b c ↔ c ∈ state.boundary.keys := by
  unfold Leads
  rw [found]

theorem leads_of_unknown (unknown : b ∉ old.keys) (c : CommitId) :
    Leads edge within metric old b c ↔ BuildEdge edge within metric b c := by
  unfold Leads
  rw [FinMap.get?_eq_none.mpr unknown]

theorem BuildInv.unknown (inv : BuildInv store edge within metric old headIds stack seen build)
    (unseen : b ∉ seen) (fresh : b ∉ old.keys) : build.known.get? b = none :=
  FinMap.get?_eq_none.mpr fun member =>
    ((inv.keys b).mp member).elim fresh fun both => unseen both.1

theorem BuildInv.keys_insert (inv : BuildInv store edge within metric old headIds stack seen build)
    (noHead : b ∈ old.keys ∨ ¬ (within b ∧ 0 < metric b)) (a : CommitId) :
    a ∈ build.known.keys ↔ a ∈ old.keys ∨ a ∈ insert b seen ∧ within a ∧ 0 < metric a := by
  rw [inv.keys, mem_insert]
  by_cases same : a = b
  · subst same
    grind
  · simp only [same, false_or]

/-- The visit of one commit, as `Worklist.run_rule` asks for it. -/
def BuildStep (store : CommitStore Node LookupError) (edge : CommitId → CommitId → Prop)
    (within : CommitId → Prop) (metric : DepthMetric) (old : FinMap CommitId (FragmentState Node))
    (headIds : List CommitId) (b : CommitId) (stack : List CommitId) (seen : Finset CommitId)
    (build : Build Node) : Prop :=
  Worklist.Visited (BuildInv store edge within metric old headIds)
    (fun _ (_ : FragmentError LookupError) => False) (store.buildWeight old) (store.ids ∪ old.keys)
    b stack (insert b seen) (store.buildStep metric (insert b seen) build b)

theorem BuildInv.step_known (inv : BuildInv store edge within metric old headIds (b :: stack) seen build)
    (before : b ∈ old.keys) : BuildStep store edge within metric old headIds b stack seen build := by
  obtain ⟨state, found⟩ := mem_keys.mp before
  unfold BuildStep buildStep
  rw [inv.drafted.kept b state found]
  refine ⟨⟨inv.frontier.step ?_ ?_, inv.keys_insert (Or.inl before), inv.drafted, inv.fresh,
    inv.nodup⟩, ?_, fun outside => absurd (mem_union_right _ before) outside⟩
  · intro c pushed
    exact (leads_of_known found c).mpr (mem_list.mp pushed)
  · intro c step
    exact Or.inl (mem_list.mpr ((leads_of_known found c).mp step))
  · unfold buildWeight FragmentState.boundarySize
    simp only [found, length_list]
    omega

variable (inv : BuildInv store edge within metric old headIds (b :: stack) seen build) (serves : store.Serves edge within)

include inv serves

theorem BuildInv.step_missing (unseen : b ∉ seen) (fresh : b ∉ old.keys)
    (outside : ¬ within b) : BuildStep store edge within metric old headIds b stack seen build := by
  have notFound := serves.missing b outside
  have unknown := inv.unknown unseen fresh
  have skipped : store.buildStep metric (insert b seen) build b = (build, .ok []) := by
    unfold buildStep
    simp only [unknown]
    by_cases positive : Depth.isBoundary (metric b) = true
    · unfold fragment require
      simp only [positive, notFound, Bool.not_true, Bool.false_eq_true, if_false]
    · simp only [Bool.not_eq_true _ ▸ positive, notFound, Bool.not_false, if_true]
  unfold BuildStep
  rw [skipped]
  refine ⟨⟨inv.frontier.step (by simp) fun c step => ?_, inv.keys_insert (Or.inr fun both => outside both.1),
    inv.drafted, inv.fresh, inv.nodup⟩, Nat.zero_le _, fun _ => rfl⟩
  exact absurd ((leads_of_unknown fresh c).mp step).1 outside

theorem BuildInv.step_head (founded : WellFounded (Function.swap edge))
    (unseen : b ∉ seen) (fresh : b ∉ old.keys) (here : within b) (positive : 0 < metric b) :
    BuildStep store edge within metric old headIds b stack seen build := by
  obtain ⟨node, found, -⟩ := serves.found b here
  obtain ⟨state, built, -, boundary, -, -⟩ :=
    fragment_eq_ok serves founded here positive build.known
  have unknown := inv.unknown unseen fresh
  have stepIff : ∀ c, Leads edge within metric old b c ↔ c ∈ state.boundary.keys := by
    intro c
    rw [leads_of_unknown fresh, boundary]
    unfold BuildEdge
    rw [if_pos positive]
    exact and_iff_right here
  unfold BuildStep buildStep
  rw [unknown]
  simp only [Depth.not_isBoundary_of_pos positive, Bool.false_eq_true, if_false, built]
  refine ⟨⟨inv.frontier.step (fun c pushed => (stepIff c).mpr (IterOrder.mem_list.mp pushed))
    (fun c step => Or.inl (IterOrder.mem_list.mpr ((stepIff c).mp step))), fun a => ?_, ?_,
    fun a => ?_, ?_⟩, ?_, fun outside => absurd (mem_union_left _ (store.mem_ids found)) outside⟩
  · rw [FinMap.keys_insert, mem_insert, mem_insert, inv.keys]
    by_cases same : a = b
    · subst same
      simp only [true_or, here, positive, and_self, or_true]
    · simp only [same, false_or]
  · refine inv.drafted.insert inv.drafted (fun _ _ found => found) serves founded here positive
      built fun other foundOther => ?_
    exact absurd (unknown.symm.trans foundOther) (by simp)
  · rw [List.mem_append, List.mem_singleton, FinMap.keys_insert, mem_insert, inv.fresh]
    by_cases same : a = b
    · subst same
      simp only [or_true, true_or, true_and, fresh, not_false_eq_true]
    · simp only [same, or_false, false_or]
  · refine List.Nodup.append inv.nodup (List.nodup_singleton b) ?_
    rw [List.disjoint_singleton]
    exact fun listed => absurd ((inv.fresh b).mp listed).1 (FinMap.get?_eq_none.mp unknown)
  · have stored : state.boundary.keys ⊆ store.ids := by
      intro c member
      have reached := ((boundary c).mp member).path.to_reflTransGen
      obtain ⟨other, foundOther, -⟩ := serves.found c (serves.reach here reached)
      exact store.mem_ids foundOther
    rw [IterOrder.length_list]
    exact (card_le_card stored).trans (Nat.le_add_left _ _)

theorem BuildInv.step_loose (unseen : b ∉ seen) (fresh : b ∉ old.keys) (here : within b)
    (flat : ¬ 0 < metric b) : BuildStep store edge within metric old headIds b stack seen build := by
  obtain ⟨node, found, parents⟩ := serves.found b here
  have stepIff : ∀ c, Leads edge within metric old b c ↔ c ∈ Parents.parents node := by
    intro c
    rw [leads_of_unknown fresh, parents]
    unfold BuildEdge
    rw [if_neg flat]
    exact and_iff_right here
  unfold BuildStep buildStep
  rw [inv.unknown unseen fresh]
  simp only [Depth.not_isBoundary_of_flat flat, if_true, found]
  refine ⟨⟨inv.frontier.step (fun c pushed => (stepIff c).mpr (mem_list.mp pushed))
    (fun c step => Or.inl (mem_list.mpr ((stepIff c).mp step))),
    inv.keys_insert (Or.inr fun both => flat both.2), inv.drafted, inv.fresh, inv.nodup⟩, ?_,
    fun outside => absurd (mem_union_left _ (store.mem_ids found)) outside⟩
  rw [length_list, ← width_eq found]
  unfold buildWeight
  omega

theorem BuildInv.step (founded : WellFounded (Function.swap edge))
    (unseen : b ∉ seen) : BuildStep store edge within metric old headIds b stack seen build := by
  by_cases fresh : b ∈ old.keys
  · exact inv.step_known fresh
  · by_cases here : within b
    · by_cases positive : 0 < metric b
      · exact inv.step_head serves founded unseen fresh here positive
      · exact inv.step_loose serves unseen fresh here positive
    · exact inv.step_missing serves unseen fresh here

end Walk

/-- The states after the post-pass, and the fresh ones in the order they were built. -/
def Build.finish (build : Build Node) :
    FinMap CommitId (FragmentState Node) × List (FragmentState Node) :=
  let final := build.freshHeads.foldl dedupe build.known
  (final, build.freshHeads.filterMap final.get?)

/-- **What a builder has before the post-pass**, when its walk reaches the commits of `reached`. -/
structure BuildResult (store : CommitStore Node LookupError) (edge : CommitId → CommitId → Prop)
    (within : CommitId → Prop) (metric : DepthMetric) (old : FinMap CommitId (FragmentState Node))
    (reached : CommitId → Prop) (build : Build Node) : Prop where
  keys : ∀ a, a ∈ build.known.keys ↔ a ∈ old.keys ∨ (within a ∧ 0 < metric a) ∧ reached a
  drafted : Drafted store edge metric old build.known
  fresh : ∀ a, a ∈ build.freshHeads ↔ a ∈ build.known.keys ∧ a ∉ old.keys

theorem buildFragmentStore_eq_finish (serves : store.Serves edge within)
    (founded : WellFounded (Function.swap edge)) (headIds : List CommitId)
    (old : FinMap CommitId (FragmentState Node)) (metric : DepthMetric) :
    ∃ build : Build Node, store.buildFragmentStore headIds old metric =
        (build.finish.1, .ok build.finish.2) ∧
      BuildResult store edge within metric old
        (fun a => ∃ root ∈ headIds, ReflTransGen (Leads edge within metric old) root a) build ∧
      build.freshHeads.Nodup := by
  have outcome := Worklist.run_rule id (store.buildStep metric)
    (BuildInv store edge within metric old headIds) (fun _ _ => False) (store.buildWeight old)
    (store.ids ∪ old.keys)
    (fun _ _ _ _ inv member => { inv with frontier := inv.frontier.skip member })
    (fun _ _ _ _ inv unseen => inv.step serves founded unseen)
    (headIds.length + ∑ id ∈ store.ids ∪ old.keys, store.buildWeight old id)
    headIds.reverse ∅ ⟨old, []⟩
    ⟨Worklist.Frontier.start _ (by simp), by simp, Drafted.start store edge metric old, by simp, by simp⟩
    (by rw [List.length_reverse, Worklist.budget, sdiff_empty])
  unfold buildFragmentStore
  generalize Worklist.run id (store.buildStep metric) _ _ _ _ = result at outcome ⊢
  obtain ⟨⟨seen, build⟩, failure⟩ := result
  cases failure with
  | some failure => exact outcome.elim
  | none =>
    have inv : BuildInv store edge within metric old headIds [] seen build := outcome
    refine ⟨build, rfl, ⟨fun a => ?_, inv.drafted, inv.fresh⟩, inv.nodup⟩
    rw [inv.keys, inv.frontier.mem_iff, and_comm]

/-! ### The post-pass -/

/-- No head that is built lies on a cycle of boundaries. The states known before can have one among
themselves. -/
def FreshAcyclic (old known : FinMap CommitId (FragmentState Node)) : Prop :=
  ∀ a ∈ known.keys, a ∉ old.keys → ¬ TransGen (FragmentState.BoundaryStep known) a a

/-- The states during the post-pass over `built`: those of `done` have nothing that is claimed
further up. -/
structure PostInv (store : CommitStore Node LookupError) (edge : CommitId → CommitId → Prop)
    (metric : DepthMetric) (old built : FinMap CommitId (FragmentState Node)) (done : CommitId → Prop)
    (known : FinMap CommitId (FragmentState Node)) : Prop where
  keys : known.keys = built.keys
  steps : ∀ a b, FragmentState.BoundaryStep known a b ↔ FragmentState.BoundaryStep built a b
  drafted : Drafted store edge metric old known
  settled : ∀ a state, done a → a ∉ old.keys → known.get? a = some state →
    ∀ x ∈ state.members, ¬ ClaimedAbove edge metric old built a x

section Post

variable {old built known : FinMap CommitId (FragmentState Node)} {done : CommitId → Prop}

theorem dedupe_eq (known : FinMap CommitId (FragmentState Node)) (head : CommitId) :
    dedupe known head = known.modify head fun state =>
      state.retainMembers fun c => decide (c ∉ state.transitiveAncestorMembers known) := by
  refine FinMap.ext fun key => ?_
  unfold dedupe
  cases found : known.get? head with
  | none =>
    rw [if_pos rfl, FinMap.get?_modify]
    by_cases same : key = head
    · rw [if_pos same, same, found, Option.map_none]
    · rw [if_neg same]
  | some state =>
    by_cases none : state.transitiveAncestorMembers known = ∅
    · rw [if_pos none, FinMap.get?_modify]
      by_cases same : key = head
      · rw [if_pos same, same, found, Option.map_some]
        congr 1
        unfold FragmentState.retainMembers
        simp [none]
      · rw [if_neg same]
    · rw [if_neg none, FinMap.get?_modify, FinMap.get?_modify]
      by_cases same : key = head
      · rw [if_pos same, if_pos same, same, found, Option.map_some, Option.map_some]
      · rw [if_neg same, if_neg same]

theorem dedupe_keys (known : FinMap CommitId (FragmentState Node)) (head : CommitId) :
    (dedupe known head).keys = known.keys := by
  rw [dedupe_eq, keys_modify]

theorem dedupe_boundaryStep (known : FinMap CommitId (FragmentState Node)) (head a b : CommitId) :
    FragmentState.BoundaryStep (dedupe known head) a b ↔ FragmentState.BoundaryStep known a b := by
  unfold FragmentState.BoundaryStep
  rw [dedupe_eq, FinMap.get?_modify]
  by_cases same : a = head
  · rw [if_pos same]
    cases known.get? a <;> simp [FragmentState.retainMembers]
  · rw [if_neg same]

section

variable (inv : PostInv store edge metric old built done known)

include inv

theorem PostInv.claimedAbove_iff (a x : CommitId) :
    ClaimedAbove edge metric old known a x ↔ ClaimedAbove edge metric old built a x :=
  claimedAbove_congr inv.keys inv.steps a x

theorem PostInv.mem_iff {a : CommitId}
    {state : FragmentState Node} (isDone : done a) (fresh : a ∉ old.keys)
    (found : known.get? a = some state) (x : CommitId) :
    x ∈ state.members ↔ Span edge metric a x ∧ ¬ ClaimedAbove edge metric old built a x := by
  have draft := inv.drafted.draft a state found fresh
  constructor
  · exact fun member => ⟨draft.upper x member, inv.settled a state isDone fresh found x member⟩
  · intro both
    refine (draft.lower x both.1).resolve_right fun higher => ?_
    exact both.2 ((inv.claimedAbove_iff a x).mp higher)

/-- **Up the boundary chain** the members are what is claimed there, however far the post-pass is. -/
theorem PostInv.mem_ancestors (acyclic : FreshAcyclic old built) {head : CommitId} {state : FragmentState Node}
    (found : known.get? head = some state) (x : CommitId) :
    x ∈ state.transitiveAncestorMembers known ↔ ClaimedAbove edge metric old built head x := by
  have same : FragmentState.BoundaryStep known = FragmentState.BoundaryStep built :=
    funext fun a => funext fun b => propext (inv.steps a b)
  have thinned := @exists_kept_iff CommitId (FragmentState.BoundaryStep known)
    (fun g => g ∈ known.keys ∧ Claims edge metric old g x)
    (fun g => ∃ anc, known.get? g = some anc ∧ x ∈ anc.members) known.keys
    (fun _ claimed => claimed.1)
    (fun g ⟨_, foundAnc, member⟩ =>
      ⟨mem_keys_of_get? foundAnc, inv.drafted.claims foundAnc member⟩)
    (by
      rintro g ⟨isKey, claims⟩
      obtain ⟨anc, foundAnc⟩ := mem_keys.mp isKey
      by_cases before : g ∈ old.keys
      · obtain ⟨first, foundFirst⟩ := mem_keys.mp before
        unfold Claims at claims
        rw [foundFirst] at claims
        exact Or.inl ⟨first, inv.drafted.kept g first foundFirst, claims⟩
      · rw [claims_of_unknown before] at claims
        rcases (inv.drafted.draft g anc foundAnc before).lower x claims with member | claimed
        · exact Or.inl ⟨anc, foundAnc, member⟩
        · rw [same]
          rw [inv.keys] at isKey
          refine Or.inr ⟨acyclic g isKey before, ?_⟩
          obtain ⟨higher, path, claimedHigher⟩ := claimed
          exact ⟨higher, same ▸ path, claimedHigher⟩) head
  rw [← inv.claimedAbove_iff, FragmentState.mem_transitiveAncestorMembers]
  refine Iff.trans ?_ thinned
  constructor
  · rintro ⟨b, member, g, path, rest⟩
    exact ⟨g, TransGen.head' ⟨state, found, member⟩ path, rest⟩
  · rintro ⟨g, path, rest⟩
    obtain ⟨b, ⟨other, foundOther, member⟩, path⟩ := TransGen.head'_iff.mp path
    obtain rfl := Option.some.inj (found.symm.trans foundOther)
    exact ⟨b, member, g, path, rest⟩

/-- **One round of the post-pass** settles its state and keeps the others. -/
theorem PostInv.dedupe (acyclic : FreshAcyclic old built) {head : CommitId} (fresh : head ∉ old.keys) :
    PostInv store edge metric old built (fun a => done a ∨ a = head) (dedupe known head) := by
  have keys : (CommitStore.dedupe known head).keys = built.keys :=
    (dedupe_keys known head).trans inv.keys
  have steps : ∀ a b, FragmentState.BoundaryStep (CommitStore.dedupe known head) a b ↔
      FragmentState.BoundaryStep built a b := fun a b =>
    (dedupe_boundaryStep known head a b).trans (inv.steps a b)
  have claimed : ∀ a x, ClaimedAbove edge metric old (CommitStore.dedupe known head) a x ↔
      ClaimedAbove edge metric old built a x := claimedAbove_congr keys steps
  -- the states of the next map: the old ones, and at the head the thinned one
  have lookup : ∀ a state, (CommitStore.dedupe known head).get? a = some state →
      (a ≠ head ∧ known.get? a = some state) ∨ (a = head ∧ ∃ previous,
        known.get? head = some previous ∧ state = previous.retainMembers fun c =>
          decide (c ∉ previous.transitiveAncestorMembers known)) := by
    intro a state found
    rw [dedupe_eq, FinMap.get?_modify] at found
    by_cases same : a = head
    · rw [if_pos same, Option.map_eq_some_iff, same] at found
      obtain ⟨previous, foundPrevious, thinned⟩ := found
      exact Or.inr ⟨same, previous, foundPrevious, thinned.symm⟩
    · rw [if_neg same] at found
      exact Or.inl ⟨same, found⟩
  refine ⟨keys, steps, ⟨fun a state found => ?_, fun a state found unknown => ?_⟩,
    fun a state isDone unknown found x member => ?_⟩
  · have different : a ≠ head := fun same => fresh (same ▸ mem_keys_of_get? found)
    rw [dedupe_eq, FinMap.get?_modify, if_neg different]
    exact inv.drafted.kept a state found
  · rcases lookup a state found with ⟨-, foundOld⟩ | ⟨rfl, previous, foundPrevious, rfl⟩
    · have draft := inv.drafted.draft a state foundOld unknown
      exact { draft with
        lower := fun x spans => (draft.lower x spans).imp_right fun higher =>
          (claimed a x).mpr ((inv.claimedAbove_iff a x).mp higher) }
    · have draft := inv.drafted.draft a previous foundPrevious fresh
      have members : ∀ x, x ∈ (previous.retainMembers fun c =>
          decide (c ∉ previous.transitiveAncestorMembers known)).members ↔
          x ∈ previous.members ∧ ¬ ClaimedAbove edge metric old built a x := by
        intro x
        unfold FragmentState.retainMembers
        rw [mem_filter, decide_eq_true_eq, inv.mem_ancestors acyclic foundPrevious]
      refine ⟨draft.headId, draft.boundary, draft.nodes, fun x spans => ?_,
        fun x member => draft.upper x ((members x).mp member).1, fun x => ?_⟩
      · rw [claimed, members]
        have before := draft.lower x spans
        rw [inv.claimedAbove_iff] at before
        by_cases higher : ClaimedAbove edge metric old built a x
        · exact Or.inr higher
        · exact Or.inl ⟨before.resolve_right higher, higher⟩
      · unfold FragmentState.retainMembers
        rw [mem_filter, mem_filter, draft.checkpoints]
        exact and_right_comm
  · rcases lookup a state found with ⟨different, foundOld⟩ | ⟨rfl, previous, foundPrevious, rfl⟩
    · exact inv.settled a state (isDone.resolve_right different) unknown foundOld x member
    · unfold FragmentState.retainMembers at member
      rw [mem_filter, decide_eq_true_eq, inv.mem_ancestors acyclic foundPrevious] at member
      exact member.2

end

theorem PostInv.fold (acyclic : FreshAcyclic old built) (todo : List CommitId)
    (fresh : ∀ head ∈ todo, head ∉ old.keys) :
    ∀ {done : CommitId → Prop} {known : FinMap CommitId (FragmentState Node)},
      PostInv store edge metric old built done known →
      PostInv store edge metric old built (fun a => done a ∨ a ∈ todo)
        (todo.foldl CommitStore.dedupe known) := by
  induction todo with
  | nil =>
    intro done known inv
    exact { inv with
      settled := fun a state isDone =>
        inv.settled a state (isDone.resolve_right List.not_mem_nil) }
  | cons head todo ih =>
    intro done known inv
    have next := ih (fun a later => fresh a (List.mem_cons_of_mem head later))
      (inv.dedupe acyclic (fresh head List.mem_cons_self))
    refine { next with settled := fun a state isDone => next.settled a state ?_ }
    rw [List.mem_cons] at isDone
    rcases isDone with before | same | later
    · exact Or.inl (Or.inl before)
    · exact Or.inl (Or.inr same)
    · exact Or.inr later

end Post

section Result

variable {old : FinMap CommitId (FragmentState Node)} {reached : CommitId → Prop} {build : Build Node}

theorem Build.keys_finish (build : Build Node) : build.finish.1.keys = build.known.keys := by
  have fold : ∀ (todo : List CommitId) (known : FinMap CommitId (FragmentState Node)),
      (todo.foldl dedupe known).keys = known.keys := by
    intro todo
    induction todo with
    | nil => exact fun _ => rfl
    | cons head todo ih => exact fun known => (ih _).trans (dedupe_keys known head)
  exact fold build.freshHeads build.known

section

variable (result : BuildResult store edge within metric old reached build)

include result

theorem BuildResult.headId_of_get?
    {a : CommitId} {state : FragmentState Node} (found : build.finish.1.get? a = some state)
    (fresh : a ∉ old.keys) : state.headId = a := by
  have fold : ∀ (todo : List CommitId) (known : FinMap CommitId (FragmentState Node)),
      (∀ a state, known.get? a = some state → a ∉ old.keys → state.headId = a) →
      ∀ a state, (todo.foldl dedupe known).get? a = some state → a ∉ old.keys →
        state.headId = a := by
    intro todo
    induction todo with
    | nil => exact fun _ holds => holds
    | cons head todo ih =>
      refine fun known holds => ih _ fun a state found fresh => ?_
      rw [dedupe_eq, FinMap.get?_modify] at found
      by_cases same : a = head
      · rw [if_pos same, Option.map_eq_some_iff] at found
        obtain ⟨previous, foundPrevious, rfl⟩ := found
        exact holds a previous foundPrevious fresh
      · rw [if_neg same] at found
        exact holds a state found fresh
  exact fold build.freshHeads build.known (fun a state found fresh =>
    (result.drafted.draft a state found fresh).headId) a state found fresh

/-- **The states are returned in the order their heads were built**, with their repetitions. -/
theorem BuildResult.map_headId : build.finish.2.map (·.headId) = build.freshHeads := by
  have returned : build.finish.2 = build.freshHeads.filterMap build.finish.1.get? := rfl
  rw [returned, List.map_filterMap]
  refine (List.filterMap_congr fun a listed => ?_).trans List.filterMap_some
  obtain ⟨isKey, fresh⟩ := (result.fresh a).mp listed
  rw [← build.keys_finish] at isKey
  obtain ⟨state, found⟩ := mem_keys.mp isKey
  rw [found, Option.map_some, result.headId_of_get? found fresh]

theorem BuildResult.finish (acyclic : FreshAcyclic old build.known) :
    PostInv store edge metric old build.known (· ∈ build.known.keys) build.finish.1 := by
  have start : PostInv store edge metric old build.known (fun _ => False) build.known :=
    ⟨rfl, fun _ _ => Iff.rfl, result.drafted, fun _ _ impossible => impossible.elim⟩
  have final := PostInv.fold acyclic build.freshHeads
    (fun head listed => ((result.fresh head).mp listed).2) start
  exact { final with
    settled := fun a state isKey unknown =>
      final.settled a state (Or.inr ((result.fresh a).mpr ⟨isKey, unknown⟩)) unknown }

end

/-- **The map after the post-pass is determined by its keys**, in whatever order the heads were
built. -/
theorem BuildResult.finish_eq {reachedOther : CommitId → Prop} {other : Build Node}
    (result : BuildResult store edge within metric old reached build)
    (again : BuildResult store edge within metric old reachedOther other)
    (keys : build.known.keys = other.known.keys) (acyclic : FreshAcyclic old build.known) :
    build.finish.1 = other.finish.1 := by
  have steps : ∀ a b, FragmentState.BoundaryStep build.known a b ↔
      FragmentState.BoundaryStep other.known a b := by
    intro a b
    rw [result.drafted.boundaryStep_iff, again.drafted.boundaryStep_iff, keys]
  have acyclicOther : FreshAcyclic old other.known := by
    intro a isKey fresh cycle
    refine acyclic a (keys ▸ isKey) fresh (TransGen.mono (fun b c step => ?_) _ _ cycle)
    exact (steps b c).mpr step
  have final := result.finish acyclic
  have finalOther := again.finish acyclicOther
  ext a : 1
  by_cases isKey : a ∈ build.known.keys
  · obtain ⟨state, found⟩ := mem_keys.mp (final.keys.symm ▸ isKey)
    have isKeyOther : a ∈ other.known.keys := keys ▸ isKey
    obtain ⟨stateOther, foundOther⟩ := mem_keys.mp (finalOther.keys.symm ▸ isKeyOther)
    rw [found, foundOther]
    congr 1
    by_cases before : a ∈ old.keys
    · obtain ⟨first, foundFirst⟩ := mem_keys.mp before
      have same := Option.some.inj ((final.drafted.kept a first foundFirst).symm.trans found)
      have sameOther :=
        Option.some.inj ((finalOther.drafted.kept a first foundFirst).symm.trans foundOther)
      rw [← same, ← sameOther]
    · have draft := final.drafted.draft a state found before
      have draftOther := finalOther.drafted.draft a stateOther foundOther before
      have members : ∀ x, x ∈ state.members ↔ x ∈ stateOther.members := by
        intro x
        rw [final.mem_iff isKey before found, finalOther.mem_iff isKeyOther before foundOther,
          claimedAbove_congr keys steps]
      refine FragmentState.eq_of_fields (draft.headId.trans draftOther.headId.symm) (fun b => ?_)
        (fun b node nodeOther stored storedOther => ?_) members fun x => ?_
      · rw [draft.boundary, draftOther.boundary]
      · have looked := (draft.nodes b node stored).symm.trans (draftOther.nodes b nodeOther storedOther)
        exact Option.some.inj (Except.ok.inj looked)
      · rw [draft.checkpoints, draftOther.checkpoints, members]
  · rw [FinMap.get?_eq_none.mpr (final.keys ▸ isKey),
      FinMap.get?_eq_none.mpr (finalOther.keys ▸ keys ▸ isKey)]

end Result

/-! ### Canonical states -/

section CanonicalStart

variable {old known : FinMap CommitId (FragmentState Node)}

variable (drafted : Drafted store edge metric old known)

include drafted

theorem Drafted.rim_of_step (canonical : ∀ a state, old.get? a = some state → Canonical edge metric a state) {a b : CommitId}
    (step : FragmentState.BoundaryStep known a b) : Rim edge metric a b := by
  rcases (drafted.boundaryStep_iff a b).mp step with ⟨state, found, member⟩ | ⟨-, rim⟩
  · exact ((canonical a state found).boundary b).mp member
  · exact rim

variable (founded : WellFounded (Function.swap edge)) (canonical : ∀ a state, old.get? a = some state → Canonical edge metric a state)

include founded canonical

theorem Drafted.acyclic : FreshAcyclic old known := by
  intro a _ _ cycle
  have above : Above edge metric a a :=
    TransGen.mono (fun _ _ step => drafted.rim_of_step canonical step) _ _ cycle
  exact irrefl founded a above.path

theorem Drafted.claimedAbove_iff
    (rim : ∀ a ∈ known.keys, ∀ b, Rim edge metric a b → b ∈ known.keys) {a : CommitId}
    (isKey : a ∈ known.keys) (x : CommitId) :
    ClaimedAbove edge metric old known a x ↔ ∃ g, Above edge metric a g ∧ Span edge metric g x := by
  have climbs : ∀ g, Above edge metric a g →
      TransGen (FragmentState.BoundaryStep known) a g ∧ g ∈ known.keys := by
    have step : ∀ b c, b ∈ known.keys → Rim edge metric b c →
        FragmentState.BoundaryStep known b c := by
      intro b c isKey step
      by_cases before : b ∈ old.keys
      · obtain ⟨state, found⟩ := mem_keys.mp before
        exact ⟨state, drafted.kept b state found, ((canonical b state found).boundary c).mpr step⟩
      · exact (drafted.boundaryStep_iff b c).mpr (Or.inr ⟨⟨isKey, before⟩, step⟩)
    intro g above
    induction above with
    | single next => exact ⟨.single (step a _ isKey next), rim a isKey _ next⟩
    | tail _ next ih => exact ⟨ih.1.tail (step _ _ ih.2 next), rim _ ih.2 _ next⟩
  constructor
  · rintro ⟨g, path, isKeyG, claims⟩
    refine ⟨g, TransGen.mono (fun _ _ step => drafted.rim_of_step canonical step) _ _ path, ?_⟩
    cases found : old.get? g with
    | none => exact (claims_of_unknown (FinMap.get?_eq_none.mp found)).mp claims
    | some state =>
      unfold Claims at claims
      rw [found] at claims
      exact (((canonical g state found).members x).mp claims).1
  · rintro ⟨g, above, spans⟩
    obtain ⟨top, place, owns⟩ := spans.owner founded
    have aboveTop : Above edge metric a top := by
      rcases place with rfl | higher
      · exact above
      · exact above.trans higher
    refine ⟨top, (climbs top aboveTop).1, (climbs top aboveTop).2, ?_⟩
    unfold Claims
    cases found : old.get? top with
    | none => exact owns.1
    | some state => exact ((canonical top state found).members x).mpr owns

end CanonicalStart

variable (serves : store.Serves edge within) (founded : WellFounded (Function.swap edge)) (headIds : List CommitId)

include serves founded headIds

theorem buildFragmentStore_extends
    (old : FinMap CommitId (FragmentState Node)) (metric : DepthMetric)
    (inside : ∀ a ∈ old.keys, within a ∧ 0 < metric a)
    (rim : ∀ a ∈ old.keys, ∀ b, Rim edge metric a b → b ∈ old.keys)
    (canonical : ∀ a state, old.get? a = some state → Canonical edge metric a state) :
    ∃ known fresh, store.buildFragmentStore headIds old metric = (known, .ok fresh) ∧
      (∀ a, a ∈ known.keys ↔ a ∈ old.keys ∨ (within a ∧ 0 < metric a) ∧
        ∃ root ∈ headIds, ReflTransGen (BuildEdge edge within metric) root a) ∧
      (∀ a ∈ known.keys, ∀ b, Rim edge metric a b → b ∈ known.keys) ∧
      (∀ a state, old.get? a = some state → known.get? a = some state) ∧
      ∀ a state, known.get? a = some state → Canonical edge metric a state ∧ (a ∉ old.keys →
        ∀ b node, state.boundary.get? b = some node → store.lookup b = .ok (some node)) := by
  obtain ⟨build, runs, result, -⟩ := buildFragmentStore_eq_finish serves founded headIds old metric
  -- past a canonical state the walk goes on as along the graph
  have leads : Leads edge within metric old = BuildEdge edge within metric := by
    funext a b
    refine propext ?_
    by_cases before : a ∈ old.keys
    · obtain ⟨state, found⟩ := mem_keys.mp before
      rw [leads_of_known found, (canonical a state found).boundary]
      unfold BuildEdge
      rw [if_pos (inside a before).2]
      exact (and_iff_right (inside a before).1).symm
    · exact leads_of_unknown before b
  have keys := result.keys
  rw [leads] at keys
  have rimBuilt : ∀ a ∈ build.known.keys, ∀ b, Rim edge metric a b → b ∈ build.known.keys := by
    intro a isKey b step
    rcases (keys a).mp isKey with before | ⟨⟨here, positive⟩, root, isRoot, path⟩
    · exact (keys b).mpr (Or.inl (rim a before b step))
    · refine (keys b).mpr (Or.inr ⟨⟨serves.reach here step.path.to_reflTransGen,
        positive.trans_le step.choose_spec.2.2⟩, root, isRoot, path.tail ⟨here, ?_⟩⟩)
      rw [if_pos positive]
      exact step
  have acyclic := result.drafted.acyclic founded canonical
  have final := result.finish acyclic
  refine ⟨_, _, runs, fun a => ?_, fun a isKey b step => ?_, final.drafted.kept,
    fun a state found => ?_⟩
  · rw [final.keys]
    exact keys a
  · rw [final.keys] at isKey ⊢
    exact rimBuilt a isKey b step
  · by_cases before : a ∈ old.keys
    · obtain ⟨first, foundFirst⟩ := mem_keys.mp before
      obtain rfl := Option.some.inj ((final.drafted.kept a first foundFirst).symm.trans found)
      exact ⟨canonical a first foundFirst, fun unknown => absurd before unknown⟩
    · have draft := final.drafted.draft a state found before
      have isKey : a ∈ build.known.keys := final.keys ▸ mem_keys_of_get? found
      have claimed := result.drafted.claimedAbove_iff founded canonical rimBuilt isKey
      have members : ∀ x, x ∈ state.members ↔ Owned edge metric a x := by
        intro x
        rw [final.mem_iff isKey before found, claimed]
        unfold Owned
        simp only [not_exists, not_and]
      refine ⟨⟨draft.headId, draft.boundary, members, fun x => ?_⟩, fun _ => draft.nodes⟩
      rw [draft.checkpoints, members]
      exact Iff.rfl

theorem buildFragmentStore_canonical (metric : DepthMetric) :
    ∃ known fresh, store.buildFragmentStore headIds ∅ metric = (known, .ok fresh) ∧
      (∀ a, a ∈ known.keys ↔ within a ∧ 0 < metric a ∧
        ∃ root ∈ headIds, ReflTransGen (BuildEdge edge within metric) root a) ∧
      (∀ a, a ∈ known.keys → ∀ b, Rim edge metric a b → b ∈ known.keys) ∧
      ∀ a state, known.get? a = some state → Canonical edge metric a state := by
  obtain ⟨known, fresh, runs, keys, rim, -, canonical⟩ :=
    buildFragmentStore_extends serves founded headIds ∅ metric (by simp) (by simp) (by simp)
  refine ⟨known, fresh, runs, fun a => ?_, rim, fun a state found => (canonical a state found).1⟩
  rw [keys, and_assoc]
  exact or_iff_right (notMem_empty a)

end CommitStore

end Subduction
