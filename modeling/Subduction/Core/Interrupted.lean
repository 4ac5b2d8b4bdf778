/-
**Builders that stop at a failed lookup.**

A lookup that fails ends `build_fragment_store` before its post-pass. The states that it inserted stay in the
map as the walks of their heads left them, and no later call thins them out: a call goes past the known
states, and its post-pass is over its own states only.

Main result: `calls_disjoint`.
-/

import Subduction.Core.Coverage
import Subduction.Lib.Interleave

set_option linter.unusedSectionVars false

namespace Subduction

open Relation Strata IterOrder Finset FinMap

section Calls

variable {Node LookupError : Type} [Parents Node] [IterOrder CommitId]

/-! ### Calls -/

/-- The store while the lookups of some commits fail. -/
def CommitStore.failing (store : CommitStore Node LookupError) (failures : CommitId → Option LookupError) :
    CommitStore Node LookupError where
  lookup id :=
    match failures id with
    | some error => .error error
    | none => store.lookup id
  ids := store.ids
  mem_ids := by
    intro id node found
    cases failed : failures id with
    | some error =>
      rw [failed] at found
      cases found
    | none =>
      rw [failed] at found
      exact store.mem_ids found

/-- A call of `build_fragment_store`: the lookups that fail while it runs, and its heads. -/
structure BuildCall (LookupError : Type) where
  failures : CommitId → Option LookupError
  headIds : List CommitId

namespace BuildCall

def run (store : CommitStore Node LookupError) (metric : DepthMetric)
    (known : FinMap CommitId (FragmentState Node)) (call : BuildCall LookupError) :
    FinMap CommitId (FragmentState Node) × Except (FragmentError LookupError) (List (FragmentState Node)) :=
  (store.failing call.failures).buildFragmentStore call.headIds known metric

def step (store : CommitStore Node LookupError) (metric : DepthMetric)
    (known : FinMap CommitId (FragmentState Node)) (call : BuildCall LookupError) :
    FinMap CommitId (FragmentState Node) := (call.run store metric known).1

end BuildCall

/-- **The members are disjoint along the boundaries.** -/
def FragmentState.DisjointAlong (known : FinMap CommitId (FragmentState Node)) : Prop :=
  ∀ a state g other, known.get? a = some state → TransGen (BoundaryStep known) a g →
    known.get? g = some other → Disjoint state.members other.members

namespace CommitStore

variable {store : CommitStore Node LookupError} {metric : DepthMetric} {failures : CommitId → Option LookupError}

theorem lookup_failing_ok {id : CommitId} {found : Option Node}
    (answer : (store.failing failures).lookup id = .ok found) : store.lookup id = .ok found := by
  unfold failing at answer
  dsimp only at answer
  cases failed : failures id with
  | some error =>
    rw [failed] at answer
    cases answer
  | none =>
    rw [failed] at answer
    exact answer

/-! ### One fragment of any store -/

section

variable (store : CommitStore Node LookupError) (metric : DepthMetric)

def InSight (head x : CommitId) : Prop :=
  Span store.ParentOf metric head x ∨ Rim store.ParentOf metric head x

/-- **A head that gets a fragment**: it has a positive depth, and the store has everything its walk comes
to. -/
structure Buildable (head : CommitId) : Prop where
  positive : 0 < metric head
  found : ∀ x, store.InSight metric head x → store.Stores x

/-- The state of a head: its boundary is the rim, and its members are from the span. -/
structure Formed (head : CommitId) (state : FragmentState Node) : Prop where
  buildable : store.Buildable metric head
  boundary : ∀ b, b ∈ state.boundary.keys ↔ Rim store.ParentOf metric head b ∧ b ≠ head
  members : ∀ x ∈ state.members, Span store.ParentOf metric head x

/-- Why a head gets no fragment. -/
def Blocked (head : CommitId) : FragmentError LookupError → Prop
  | .depthZeroHead _ => ¬ 0 < metric head
  | .missingCommit id => store.InSight metric head id ∧ store.lookup id = .ok none
  | .lookupError _ => True

/-- What `fragment` answers. -/
def Answers (head : CommitId) : Except (FragmentError LookupError) (FragmentState Node) → Prop
  | .ok state => store.Formed metric head state
  | .error failure => store.Blocked metric head failure

end

theorem require_eq_error {id : CommitId} {failure : FragmentError LookupError}
    (answer : store.require id = .error failure) :
    (failure = .missingCommit id ∧ store.lookup id = .ok none) ∨
      ∃ error, failure = .lookupError error ∧ store.lookup id = .error error := by
  unfold require at answer
  cases found : store.lookup id with
  | error error =>
    rw [found] at answer
    exact Or.inr ⟨error, (Except.error.inj answer).symm, rfl⟩
  | ok stored =>
    rw [found] at answer
    cases stored with
    | none => exact Or.inl ⟨(Except.error.inj answer).symm, rfl⟩
    | some node => cases answer

theorem blocked_of_require {head id : CommitId} (inSight : store.InSight metric head id)
    {failure : FragmentError LookupError} (answer : store.require id = .error failure) :
    store.Blocked metric head failure := by
  rcases require_eq_error answer with ⟨rfl, missing⟩ | ⟨error, rfl, -⟩
  · exact ⟨inSight, missing⟩
  · exact trivial

theorem WalkInv.inSight {head b : CommitId} {stack : List CommitId} {seen : Finset CommitId} {walk : Walk Node}
    (inv : WalkInv store.ParentOf metric head stack seen walk) (visible : b ∈ stack ∨ b ∈ seen) :
    store.InSight metric head b := by
  obtain ⟨root, rfl, path⟩ := inv.frontier.reached b visible
  exact walk_iff.mp path

theorem fragment_answers (store : CommitStore Node LookupError) (head : CommitId)
    (known : FinMap CommitId (FragmentState Node)) (metric : DepthMetric) :
    store.Answers metric head (store.fragment head known metric) := by
  unfold fragment
  by_cases positive : 0 < metric head
  · simp only [Depth.not_isBoundary_of_pos positive, Bool.false_eq_true, if_false]
    cases required : store.require head with
    | error failure => exact blocked_of_require (Or.inl .refl) required
    | ok headNode =>
      have found := require_eq_ok.mp required
      have outcome := Worklist.run_rule id (store.absorb metric (metric head))
        (fun stack seen walk => (WalkInv store.ParentOf metric head stack seen walk ∧ head ∈ seen) ∧
          ∀ x ∈ seen, store.Stores x)
        (fun _ failure => store.Blocked metric head failure) store.width store.ids
        (fun _ _ _ _ inv member =>
          ⟨⟨{ inv.1.1 with frontier := inv.1.1.frontier.skip member }, inv.1.2⟩, inv.2⟩)
        ?step _ _ _ _
        ⟨⟨WalkInv.start fun _ => mem_parents_iff found, mem_singleton_self head⟩,
          fun x member => mem_singleton.mp member ▸ ⟨headNode, found⟩⟩
        (Nat.add_le_add_left (sum_le_sum_of_subset sdiff_subset) _)
      case step =>
        intro b stack seen walk inv fresh
        cases requiredB : store.require b with
        | error failure =>
          unfold absorb
          rw [id, requiredB]
          exact blocked_of_require (inv.1.1.inSight (Or.inl List.mem_cons_self)) requiredB
        | ok node =>
          have foundB := require_eq_ok.mp requiredB
          have visited := inv.1.1.step_found foundB (fun _ => mem_parents_iff foundB) inv.1.2 fresh
            fun _ failure => store.Blocked metric head failure
          have stored : ∀ x ∈ insert b seen, store.Stores x := by
            intro x member
            rcases mem_insert.mp member with rfl | member
            · exact ⟨node, foundB⟩
            · exact inv.2 x member
          show Worklist.Visited _ _ _ _ b stack (insert b seen) (store.absorb metric _ (insert b seen) walk b)
          cases answer : store.absorb metric (metric head) (insert b seen) walk b with
          | mk next pushed =>
            rw [answer] at visited
            cases pushed with
            | error failure => exact visited
            | ok pushed => exact ⟨⟨visited.1, stored⟩, visited.2⟩
      dsimp only
      generalize Worklist.run id (store.absorb metric (metric head)) _ _ _ _ = result at outcome ⊢
      obtain ⟨⟨seen, walk⟩, failure⟩ := result
      cases failure with
      | some failure => exact outcome
      | none =>
        obtain ⟨⟨inv, -⟩, stored⟩ := outcome
        refine ⟨⟨positive, fun x inSight => stored x ((inv.mem_seen x).mpr inSight)⟩, fun b => ?_,
          fun x member => (inv.mem_members x).mp (mem_sdiff.mp member).1⟩
        rw [inv.boundary, inv.mem_seen]
        constructor
        · rintro ⟨spans | rim, notHead, deep⟩
          · exact absurd deep (not_le.mpr (spans.eq_or_depth_lt.resolve_left notHead))
          · exact ⟨rim, notHead⟩
        · exact fun both => ⟨Or.inr both.1, both.2, both.1.choose_spec.2.2⟩
  · simp only [Depth.not_isBoundary_of_flat positive, if_true]
    exact positive

/-! ### One fragment while lookups fail -/

theorem parentOf_failing {child parent : CommitId} (isParent : (store.failing failures).ParentOf child parent) :
    store.ParentOf child parent := by
  obtain ⟨node, found, member⟩ := isParent
  exact ⟨node, lookup_failing_ok found, member⟩

theorem span_failing {head x : CommitId} (spans : Span (store.failing failures).ParentOf metric head x) :
    Span store.ParentOf metric head x :=
  ReflTransGen.mono (fun _ _ step => ⟨parentOf_failing step.1, step.2⟩) _ _ spans

theorem rim_failing {head x : CommitId} (rim : Rim (store.failing failures).ParentOf metric head x) :
    Rim store.ParentOf metric head x := by
  obtain ⟨a, spans, step, deep⟩ := rim
  exact ⟨a, span_failing spans, parentOf_failing step, deep⟩

theorem Buildable.span_iff {head x : CommitId} (buildable : (store.failing failures).Buildable metric head) :
    Span (store.failing failures).ParentOf metric head x ↔ Span store.ParentOf metric head x := by
  refine ⟨span_failing, fun spans => ?_⟩
  induction spans with
  | refl => exact .refl
  | tail _ step ih =>
    obtain ⟨node, found⟩ := buildable.found _ (Or.inl ih)
    have isParent := (mem_parents_iff (lookup_failing_ok found)).mpr step.1
    exact ReflTransGen.tail ih ⟨⟨node, found, isParent⟩, step.2⟩

theorem Buildable.rim_iff {head x : CommitId} (buildable : (store.failing failures).Buildable metric head) :
    Rim (store.failing failures).ParentOf metric head x ↔ Rim store.ParentOf metric head x := by
  refine ⟨rim_failing, fun ⟨a, spans, step, deep⟩ => ?_⟩
  have spansFailing := buildable.span_iff.mpr spans
  obtain ⟨node, found⟩ := buildable.found a (Or.inl spansFailing)
  exact ⟨a, spansFailing, ⟨node, found, (mem_parents_iff (lookup_failing_ok found)).mpr step⟩, deep⟩

/-- What `fragment` answers about the store while lookups fail. -/
def Reports (store : CommitStore Node LookupError) (metric : DepthMetric) (head : CommitId) :
    Except (FragmentError LookupError) (FragmentState Node) → Prop
  | .ok state => store.Formed metric head state
  | .error (.lookupError _) => True
  | .error _ => ¬ store.Buildable metric head

theorem fragment_failing (store : CommitStore Node LookupError) (failures : CommitId → Option LookupError)
    (head : CommitId) (known : FinMap CommitId (FragmentState Node)) (metric : DepthMetric) :
    store.Reports metric head ((store.failing failures).fragment head known metric) := by
  have answers := (store.failing failures).fragment_answers head known metric
  cases answer : (store.failing failures).fragment head known metric with
  | ok state =>
    rw [answer] at answers
    obtain ⟨buildable, boundary, members⟩ := answers
    refine ⟨⟨buildable.positive, fun x inSight => ?_⟩, fun b => ?_, fun x member => ?_⟩
    · obtain ⟨node, found⟩ := buildable.found x (inSight.imp buildable.span_iff.mpr buildable.rim_iff.mpr)
      exact ⟨node, lookup_failing_ok found⟩
    · rw [boundary, buildable.rim_iff]
    · exact span_failing (members x member)
  | error failure =>
    rw [answer] at answers
    cases failure with
    | lookupError error => exact trivial
    | missingCommit id =>
      obtain ⟨inSight, missing⟩ := answers
      intro buildable
      obtain ⟨node, found⟩ := buildable.found id (inSight.imp span_failing rim_failing)
      rw [lookup_failing_ok missing] at found
      cases found
    | depthZeroHead id => exact fun buildable => answers buildable.positive

/-! ### The walk of a call -/

def Reached (store : CommitStore Node LookupError) (metric : DepthMetric)
    (old : FinMap CommitId (FragmentState Node)) (headIds : List CommitId) (a : CommitId) : Prop :=
  ∃ root ∈ headIds, ReflTransGen (Leads store.ParentOf store.Stores metric old) root a

/-- **The walk of a call**, wherever it is: it stays on what it reaches, keeps the states that were known,
and has built every head it has seen that gets a fragment. -/
structure Walked (store : CommitStore Node LookupError) (metric : DepthMetric)
    (old : FinMap CommitId (FragmentState Node)) (headIds : List CommitId) (stack : List CommitId)
    (seen : Finset CommitId) (build : Build Node) : Prop where
  reached : ∀ a, a ∈ stack ∨ a ∈ seen → store.Reached metric old headIds a
  kept : ∀ a state, old.get? a = some state → build.known.get? a = some state
  built : ∀ a state, build.known.get? a = some state → a ∉ old.keys → a ∈ seen ∧ store.Formed metric a state
  fresh : ∀ a, a ∈ build.freshHeads ↔ a ∈ build.known.keys ∧ a ∉ old.keys
  closed : ∀ a ∈ seen, ∀ state, build.known.get? a = some state → ∀ b ∈ state.boundary.keys,
    b ∈ stack ∨ b ∈ seen
  done : ∀ a ∈ seen, store.Buildable metric a → a ∈ build.known.keys

namespace Walked

variable {old : FinMap CommitId (FragmentState Node)} {headIds : List CommitId} {b : CommitId}
  {stack : List CommitId} {seen : Finset CommitId} {build : Build Node}

theorem skip (walked : store.Walked metric old headIds (b :: stack) seen build) (member : b ∈ seen) :
    store.Walked metric old headIds stack seen build where
  reached a visible := walked.reached a (visible.imp_left (List.mem_cons_of_mem b))
  kept := walked.kept
  built := walked.built
  fresh := walked.fresh
  closed := by
    intro a isSeen state found c isBoundary
    rcases walked.closed a isSeen state found c isBoundary with onStack | inSeen
    · rcases List.mem_cons.mp onStack with rfl | onStack
      · exact Or.inr member
      · exact Or.inl onStack
    · exact Or.inr inSeen
  done := walked.done

theorem reached_push (walked : store.Walked metric old headIds (b :: stack) seen build) {pushed : List CommitId}
    (leads : ∀ c ∈ pushed, Leads store.ParentOf store.Stores metric old b c) (a : CommitId)
    (visible : a ∈ pushed.reverse ++ stack ∨ a ∈ insert b seen) : store.Reached metric old headIds a := by
  rcases visible with onStack | inSeen
  · rcases List.mem_append.mp onStack with new | onStack
    · obtain ⟨root, isRoot, path⟩ := walked.reached b (Or.inl List.mem_cons_self)
      exact ⟨root, isRoot, path.tail (leads a (List.mem_reverse.mp new))⟩
    · exact walked.reached a (Or.inl (List.mem_cons_of_mem b onStack))
  · rcases mem_insert.mp inSeen with rfl | inSeen
    · exact walked.reached a (Or.inl List.mem_cons_self)
    · exact walked.reached a (Or.inr inSeen)

theorem visible_push {pushed : List CommitId} {c : CommitId} (visible : c ∈ b :: stack ∨ c ∈ seen) :
    c ∈ pushed.reverse ++ stack ∨ c ∈ insert b seen := by
  rcases visible with onStack | inSeen
  · rcases List.mem_cons.mp onStack with rfl | onStack
    · exact Or.inr (mem_insert_self _ _)
    · exact Or.inl (List.mem_append_right _ onStack)
  · exact Or.inr (mem_insert_of_mem inSeen)

/-- A commit that adds no state: its successors are pushed, and it gets no fragment or is known. -/
theorem pass (walked : store.Walked metric old headIds (b :: stack) seen build) (pushed : List CommitId)
    (leads : ∀ c ∈ pushed, Leads store.ParentOf store.Stores metric old b c)
    (boundary : ∀ state, build.known.get? b = some state → ∀ c ∈ state.boundary.keys, c ∈ pushed)
    (settled : store.Buildable metric b → b ∈ build.known.keys) :
    store.Walked metric old headIds (pushed.reverse ++ stack) (insert b seen) build where
  reached := walked.reached_push leads
  kept := walked.kept
  built a state found unknown :=
    ⟨mem_insert_of_mem (walked.built a state found unknown).1, (walked.built a state found unknown).2⟩
  fresh := walked.fresh
  closed := by
    intro a isSeen state found c isBoundary
    rcases mem_insert.mp isSeen with rfl | isSeen
    · exact Or.inl (List.mem_append_left _ (List.mem_reverse.mpr (boundary state found c isBoundary)))
    · exact visible_push (walked.closed a isSeen state found c isBoundary)
  done := by
    intro a isSeen buildable
    rcases mem_insert.mp isSeen with rfl | isSeen
    · exact settled buildable
    · exact walked.done a isSeen buildable

theorem form (walked : store.Walked metric old headIds (b :: stack) seen build) (unseen : b ∉ seen)
    (unknown : build.known.get? b = none) {state : FragmentState Node} (formed : store.Formed metric b state) :
    store.Walked metric old headIds ((IterOrder.list state.boundary.keys).reverse ++ stack)
      (insert b seen) ⟨build.known.insert b state, build.freshHeads ++ [b]⟩ := by
  have fresh : b ∉ old.keys := by
    intro before
    obtain ⟨first, found⟩ := mem_keys.mp before
    rw [walked.kept b first found] at unknown
    cases unknown
  have leads : ∀ c ∈ IterOrder.list state.boundary.keys, Leads store.ParentOf store.Stores metric old b c := by
    intro c pushed
    refine (leads_of_unknown fresh c).mpr ⟨formed.buildable.found b (Or.inl .refl), ?_⟩
    rw [if_pos formed.buildable.positive]
    exact ((formed.boundary c).mp (mem_list.mp pushed)).1
  refine ⟨?_, fun a first found => ?_, fun a other found notOld => ?_, fun a => ?_, ?_, fun a isSeen buildable => ?_⟩
  · exact walked.reached_push leads
  · have different : a ≠ b := fun same => fresh (same ▸ mem_keys_of_get? found)
    rw [FinMap.get?_insert_of_ne _ _ different]
    exact walked.kept a first found
  · rcases of_get?_insert found with ⟨rfl, rfl⟩ | ⟨-, found⟩
    · exact ⟨mem_insert_self _ _, formed⟩
    · exact ⟨mem_insert_of_mem (walked.built a other found notOld).1,
        (walked.built a other found notOld).2⟩
  · rw [List.mem_append, List.mem_singleton, keys_insert, mem_insert, walked.fresh]
    by_cases same : a = b
    · subst same
      simp only [or_true, true_or, true_and, fresh, not_false_eq_true]
    · simp only [same, or_false, false_or]
  · intro a isSeen other found c isBoundary
    rcases of_get?_insert found with ⟨rfl, rfl⟩ | ⟨different, found⟩
    · exact Or.inl (List.mem_append_left _ (List.mem_reverse.mpr (mem_list.mpr isBoundary)))
    · have isSeen := (mem_insert.mp isSeen).resolve_left different
      exact visible_push (walked.closed a isSeen other found c isBoundary)
  · rw [keys_insert]
    rcases mem_insert.mp isSeen with rfl | isSeen
    · exact mem_insert_self _ _
    · exact mem_insert_of_mem (walked.done a isSeen buildable)

end Walked

/-- **One visit of the walk**: it goes on, or a lookup failed and the states are as they were. -/
theorem Walked.step {old : FinMap CommitId (FragmentState Node)} {headIds : List CommitId} {b : CommitId}
    {stack : List CommitId} {seen : Finset CommitId} {build : Build Node}
    (walked : store.Walked metric old headIds (b :: stack) seen build) (unseen : b ∉ seen) :
    Worklist.Visited (store.Walked metric old headIds)
      (fun build (_ : FragmentError LookupError) => ∃ stack seen, store.Walked metric old headIds stack seen build)
      ((store.failing failures).buildWeight old) ((store.failing failures).ids ∪ old.keys) b stack (insert b seen)
      ((store.failing failures).buildStep metric (insert b seen) build b) := by
  unfold buildStep
  cases found : build.known.get? b with
  | some state =>
    have before : old.get? b = some state := by
      by_cases before : b ∈ old.keys
      · obtain ⟨first, foundFirst⟩ := mem_keys.mp before
        rw [← found, walked.kept b first foundFirst]
        exact foundFirst
      · exact absurd (walked.built b state found before).1 unseen
    refine ⟨walked.pass _ (fun c pushed => (leads_of_known before c).mpr (mem_list.mp pushed))
      (fun other foundOther c isBoundary => ?_) fun _ => mem_keys_of_get? found, ?_,
      fun outside => absurd (mem_union_right _ (mem_keys_of_get? before)) outside⟩
    · obtain rfl := Option.some.inj (found.symm.trans foundOther)
      exact mem_list.mpr isBoundary
    · unfold buildWeight FragmentState.boundarySize
      simp only [before, length_list]
      omega
  | none =>
    have fresh : b ∉ old.keys := by
      intro before
      obtain ⟨first, foundFirst⟩ := mem_keys.mp before
      rw [walked.kept b first foundFirst] at found
      cases found
    have noState : ∀ state, build.known.get? b = some state → ∀ c ∈ state.boundary.keys, c ∈ ([] : List CommitId) := by
      intro state foundState
      rw [found] at foundState
      cases foundState
    by_cases positive : 0 < metric b
    · simp only [Depth.not_isBoundary_of_pos positive, Bool.false_eq_true, if_false]
      have reports := store.fragment_failing failures b build.known metric
      cases answer : (store.failing failures).fragment b build.known metric with
      | ok state =>
        rw [answer] at reports
        refine ⟨walked.form unseen found reports, ?_, fun outside => ?_⟩
        · have stored : state.boundary.keys ⊆ (store.failing failures).ids := by
            intro c member
            obtain ⟨node, isNode⟩ := mem_keys.mp member
            exact (store.failing failures).mem_ids (fragment_nodes answer isNode)
          rw [length_list]
          exact (card_le_card stored).trans (Nat.le_add_left _ _)
        · obtain ⟨node, foundNode⟩ := reports.buildable.found b (Or.inl .refl)
          exact absurd (mem_union_left _ (store.mem_ids foundNode)) outside
      | error failure =>
        rw [answer] at reports
        cases failure with
        | lookupError error => exact ⟨_, _, walked⟩
        | depthZeroHead id => exact ⟨_, _, walked⟩
        | missingCommit id =>
          refine ⟨walked.pass [] (by simp) ?_ (fun buildable => absurd buildable reports),
            Nat.zero_le _, fun _ => rfl⟩
          exact noState
    · simp only [Depth.not_isBoundary_of_flat positive, if_true]
      have flat : ¬ store.Buildable metric b := fun buildable => positive buildable.positive
      cases answer : (store.failing failures).lookup b with
      | error error => exact ⟨_, _, walked⟩
      | ok stored =>
        cases stored with
        | none =>
          refine ⟨walked.pass [] (by simp) noState (fun buildable => absurd buildable flat),
            Nat.zero_le _, fun _ => rfl⟩
        | some node =>
          have foundNode := lookup_failing_ok answer
          refine ⟨walked.pass _ (fun c pushed => ?_) (fun state foundState => ?_)
            (fun buildable => absurd buildable flat), ?_,
            fun outside => absurd (mem_union_left _ (store.mem_ids foundNode)) outside⟩
          · refine (leads_of_unknown fresh c).mpr ⟨⟨node, foundNode⟩, ?_⟩
            rw [if_neg positive]
            exact ⟨node, foundNode, mem_list.mp pushed⟩
          · rw [found] at foundState
            cases foundState
          · rw [length_list, ← width_eq answer]
            unfold buildWeight
            omega

/-- **A call of the builder**: its walk ends and the post-pass follows, or it is stopped where it is. -/
theorem run_call (store : CommitStore Node LookupError) (metric : DepthMetric)
    (old : FinMap CommitId (FragmentState Node)) (call : BuildCall LookupError) :
    (∃ build seen, call.run store metric old = (build.finish.1, .ok build.finish.2) ∧
      store.Walked metric old call.headIds [] seen build) ∨
    ∃ build stack seen failure, call.run store metric old = (build.known, .error failure) ∧
      store.Walked metric old call.headIds stack seen build := by
  have start : store.Walked metric old call.headIds call.headIds.reverse ∅ ⟨old, []⟩ := by
    refine ⟨fun a visible => ?_, fun _ _ found => found, fun a state found unknown => ?_, fun a => ?_,
      fun a isSeen => absurd isSeen (notMem_empty a),
      fun a isSeen => absurd isSeen (notMem_empty a)⟩
    · rcases visible with onStack | inSeen
      · exact ⟨a, List.mem_reverse.mp onStack, .refl⟩
      · exact absurd inSeen (notMem_empty a)
    · exact absurd (mem_keys_of_get? found) unknown
    · simp
  have outcome := Worklist.run_rule id ((store.failing call.failures).buildStep metric)
    (store.Walked metric old call.headIds)
    (fun build _ => ∃ stack seen, store.Walked metric old call.headIds stack seen build)
    ((store.failing call.failures).buildWeight old) ((store.failing call.failures).ids ∪ old.keys)
    (fun _ _ _ _ walked member => walked.skip member) (fun _ _ _ _ walked unseen => walked.step unseen)
    (call.headIds.length + ∑ id ∈ (store.failing call.failures).ids ∪ old.keys,
      (store.failing call.failures).buildWeight old id)
    call.headIds.reverse ∅ ⟨old, []⟩ start
    (by rw [List.length_reverse, Worklist.budget, sdiff_empty])
  unfold BuildCall.run buildFragmentStore
  generalize Worklist.run id ((store.failing call.failures).buildStep metric) _ _ _ _ = result at outcome ⊢
  obtain ⟨⟨seen, build⟩, failure⟩ := result
  cases failure with
  | some failure =>
    obtain ⟨stack, seen, walked⟩ := outcome
    exact Or.inr ⟨build, stack, seen, failure, rfl, walked⟩
  | none => exact Or.inl ⟨build, seen, rfl, outcome⟩

/-! ### The post-pass -/

section Post

variable {known : FinMap CommitId (FragmentState Node)}

theorem get?_dedupe_of_ne {head a : CommitId} (different : a ≠ head) :
    (dedupe known head).get? a = known.get? a := by
  rw [dedupe_eq, FinMap.get?_modify, if_neg different]

theorem of_get?_dedupe {head a : CommitId} {after : FragmentState Node}
    (found : (dedupe known head).get? a = some after) :
    ∃ before, known.get? a = some before ∧ after.boundary = before.boundary ∧ after.members ⊆ before.members := by
  by_cases same : a = head
  · rw [dedupe_eq, FinMap.get?_modify, if_pos same, Option.map_eq_some_iff] at found
    obtain ⟨before, foundBefore, rfl⟩ := found
    exact ⟨before, foundBefore, rfl, filter_subset _ _⟩
  · rw [get?_dedupe_of_ne same] at found
    exact ⟨after, found, rfl, Finset.Subset.refl _⟩

theorem disjoint_dedupe {head g : CommitId} {after other : FragmentState Node}
    (found : (dedupe known head).get? head = some after) (path : TransGen (FragmentState.BoundaryStep known) head g)
    (foundOther : known.get? g = some other) : Disjoint after.members other.members := by
  rw [dedupe_eq, FinMap.get?_modify, if_pos rfl, Option.map_eq_some_iff] at found
  obtain ⟨before, foundBefore, rfl⟩ := found
  refine disjoint_left.mpr fun x member memberOther => ?_
  have kept := of_decide_eq_true (mem_filter.mp member).2
  obtain ⟨b, ⟨first, foundFirst, isBoundary⟩, path⟩ := TransGen.head'_iff.mp path
  obtain rfl := Option.some.inj (foundBefore.symm.trans foundFirst)
  exact kept ((before.mem_transitiveAncestorMembers known x).mpr ⟨b, isBoundary, g, path, other, foundOther, memberOther⟩)

theorem foldl_dedupe (todo : List CommitId) : ∀ known : FinMap CommitId (FragmentState Node),
    (∀ a ∉ todo, (todo.foldl dedupe known).get? a = known.get? a) ∧
    (∀ a after, (todo.foldl dedupe known).get? a = some after → ∃ before, known.get? a = some before ∧
      after.boundary = before.boundary ∧ after.members ⊆ before.members) ∧
    ∀ a ∈ todo, ∀ after g other, (todo.foldl dedupe known).get? a = some after →
      TransGen (FragmentState.BoundaryStep known) a g → (todo.foldl dedupe known).get? g = some other →
      Disjoint after.members other.members := by
  induction todo with
  | nil => exact fun _ => ⟨fun _ _ => rfl, fun a after found => ⟨after, found, rfl, Finset.Subset.refl _⟩, by simp⟩
  | cons head todo ih =>
    intro known
    obtain ⟨others, shrinks, disjoint⟩ := ih (dedupe known head)
    have shrinksAll : ∀ a after, (todo.foldl dedupe (dedupe known head)).get? a = some after →
        ∃ before, known.get? a = some before ∧ after.boundary = before.boundary ∧
          after.members ⊆ before.members := by
      intro a after found
      obtain ⟨between, foundBetween, boundary, members⟩ := shrinks a after found
      obtain ⟨before, foundBefore, boundaryBefore, membersBefore⟩ := of_get?_dedupe foundBetween
      exact ⟨before, foundBefore, boundary.trans boundaryBefore, members.trans membersBefore⟩
    refine ⟨fun a outside => ?_, shrinksAll, fun a isTodo after g other found path foundOther => ?_⟩
    · obtain ⟨different, outside⟩ := not_or.mp (List.mem_cons.not.mp outside)
      exact (others a outside).trans (get?_dedupe_of_ne different)
    · rcases List.mem_cons.mp isTodo with rfl | later
      · obtain ⟨between, foundBetween, -, members⟩ := shrinks a after found
        obtain ⟨before, foundBefore, -, membersOther⟩ := shrinksAll g other foundOther
        exact (disjoint_dedupe foundBetween path foundBefore).mono members membersOther
      · refine disjoint a later after g other found ?_ foundOther
        exact TransGen.mono (fun b c step => (dedupe_boundaryStep known head b c).mpr step) _ _ path

end Post

/-! ### Runs of calls -/

/-- The head spans nothing that a head up its boundaries spans. -/
def Apart (store : CommitStore Node LookupError) (metric : DepthMetric) (head : CommitId) : Prop :=
  ∀ g x, Above store.ParentOf metric head g → Span store.ParentOf metric head x → ¬ Span store.ParentOf metric g x

/-- From a head that gets a fragment to its boundary. -/
def Chain (store : CommitStore Node LookupError) (metric : DepthMetric) (a b : CommitId) : Prop :=
  store.Buildable metric a ∧ Rim store.ParentOf metric a b ∧ b ≠ a

/-- Everything up the boundaries that gets a fragment is in the map, and has none of the members. -/
def Settled (store : CommitStore Node LookupError) (metric : DepthMetric)
    (known : FinMap CommitId (FragmentState Node)) (a : CommitId) : Prop :=
  ∀ g, TransGen (store.Chain metric) a g → store.Buildable metric g → ∃ other, known.get? g = some other ∧
    ∀ state, known.get? a = some state → Disjoint state.members other.members

/-- **What the calls keep**: every state is apart from what is up its boundaries, or settled. -/
structure Sound (store : CommitStore Node LookupError) (metric : DepthMetric)
    (known : FinMap CommitId (FragmentState Node)) : Prop where
  formed : ∀ a state, known.get? a = some state → store.Formed metric a state
  apart : ∀ a ∈ known.keys, store.Apart metric a ∨ store.Settled metric known a

section Sound

variable {old known : FinMap CommitId (FragmentState Node)}

theorem boundaryStep_iff (formed : ∀ a state, known.get? a = some state → store.Formed metric a state)
    {a b : CommitId} : FragmentState.BoundaryStep known a b ↔ a ∈ known.keys ∧ store.Chain metric a b := by
  constructor
  · rintro ⟨state, found, isBoundary⟩
    have isFormed := formed a state found
    exact ⟨mem_keys_of_get? found, isFormed.buildable, (isFormed.boundary b).mp isBoundary⟩
  · rintro ⟨isKey, -, rim⟩
    obtain ⟨state, found⟩ := mem_keys.mp isKey
    exact ⟨state, found, ((formed a state found).boundary b).mpr rim⟩

theorem Sound.disjointAlong (sound : store.Sound metric known) : FragmentState.DisjointAlong known := by
  intro a state g other found path foundOther
  have chain : TransGen (store.Chain metric) a g :=
    TransGen.mono (fun _ _ step => ((boundaryStep_iff sound.formed).mp step).2) _ _ path
  rcases sound.apart a (mem_keys_of_get? found) with apart | settled
  · refine disjoint_left.mpr fun x member memberOther => ?_
    refine apart g x ?_ ((sound.formed a state found).members x member)
      ((sound.formed g other foundOther).members x memberOther)
    exact TransGen.mono (fun _ _ step => step.2.1) _ _ chain
  · obtain ⟨stored, foundStored, disjoint⟩ := settled g chain (sound.formed g other foundOther).buildable
    obtain rfl := Option.some.inj (foundOther.symm.trans foundStored)
    exact disjoint state found

theorem Settled.mono {a : CommitId} (settled : store.Settled metric old a) (isKey : a ∈ old.keys)
    (kept : ∀ a state, old.get? a = some state → known.get? a = some state) : store.Settled metric known a := by
  intro g path buildable
  obtain ⟨other, found, disjoint⟩ := settled g path buildable
  refine ⟨other, kept g other found, fun state foundState => ?_⟩
  obtain ⟨first, foundFirst⟩ := mem_keys.mp isKey
  obtain rfl := Option.some.inj ((kept a first foundFirst).symm.trans foundState)
  exact disjoint first foundFirst

end Sound

namespace Walked

variable {old : FinMap CommitId (FragmentState Node)} {headIds : List CommitId} {stack : List CommitId}
  {seen : Finset CommitId} {build : Build Node}

theorem formed (walked : store.Walked metric old headIds stack seen build) (sound : store.Sound metric old)
    (a : CommitId) (state : FragmentState Node) (found : build.known.get? a = some state) :
    store.Formed metric a state := by
  by_cases before : a ∈ old.keys
  · obtain ⟨first, foundFirst⟩ := mem_keys.mp before
    obtain rfl := Option.some.inj ((walked.kept a first foundFirst).symm.trans found)
    exact sound.formed a first foundFirst
  · exact (walked.built a state found before).2

/-- **A finished walk has seen everything up the boundaries** of what it has seen. -/
theorem mem_seen_of_chain (walked : store.Walked metric old headIds [] seen build) (sound : store.Sound metric old)
    {a g : CommitId} (isSeen : a ∈ seen) (path : TransGen (store.Chain metric) a g) : g ∈ seen := by
  have step {b c : CommitId} (isSeen : b ∈ seen) (chain : store.Chain metric b c) : c ∈ seen := by
    obtain ⟨state, found⟩ := mem_keys.mp (walked.done b isSeen chain.1)
    have isBoundary := ((walked.formed sound b state found).boundary c).mpr chain.2
    exact (walked.closed b isSeen state found c isBoundary).resolve_left List.not_mem_nil
  induction path with
  | single chain => exact step isSeen chain
  | tail _ chain ih => exact step ih chain

theorem sound_of_apart (walked : store.Walked metric old headIds stack seen build)
    (sound : store.Sound metric old)
    (apart : ∀ a, store.Reached metric old headIds a → a ∉ old.keys → store.Buildable metric a →
      store.Apart metric a) : store.Sound metric build.known := by
  refine ⟨walked.formed sound, fun a isKey => ?_⟩
  by_cases before : a ∈ old.keys
  · exact (sound.apart a before).imp_right fun settled => settled.mono before walked.kept
  · obtain ⟨state, found⟩ := mem_keys.mp isKey
    obtain ⟨isSeen, formed⟩ := walked.built a state found before
    exact Or.inl (apart a (walked.reached a (Or.inr isSeen)) before formed.buildable)

theorem sound_of_finish (walked : store.Walked metric old headIds [] seen build)
    (sound : store.Sound metric old) : store.Sound metric build.finish.1 := by
  obtain ⟨others, shrinks, disjoint⟩ := foldl_dedupe build.freshHeads build.known
  have formed : ∀ a state, build.finish.1.get? a = some state → store.Formed metric a state := by
    intro a state found
    obtain ⟨before, foundBefore, boundary, members⟩ := shrinks a state found
    have isFormed := walked.formed sound a before foundBefore
    refine ⟨isFormed.buildable, fun b => ?_, fun x member => isFormed.members x (members member)⟩
    rw [boundary]
    exact isFormed.boundary b
  refine ⟨formed, fun a isKey => ?_⟩
  have kept : ∀ a state, old.get? a = some state → build.finish.1.get? a = some state := by
    intro a state found
    have notFresh : a ∉ build.freshHeads := fun isFresh =>
      ((walked.fresh a).mp isFresh).2 (mem_keys_of_get? found)
    exact (others a notFresh).trans (walked.kept a state found)
  by_cases before : a ∈ old.keys
  · exact (sound.apart a before).imp_right fun settled => settled.mono before kept
  · rw [Build.keys_finish] at isKey
    obtain ⟨state, found⟩ := mem_keys.mp isKey
    have isSeen := (walked.built a state found before).1
    refine Or.inr fun g path buildable => ?_
    have seenG := walked.mem_seen_of_chain sound isSeen path
    have isKeyG : g ∈ build.finish.1.keys := by
      rw [Build.keys_finish]
      exact walked.done g seenG buildable
    obtain ⟨other, foundOther⟩ := mem_keys.mp isKeyG
    refine ⟨other, foundOther, fun after foundAfter => ?_⟩
    refine disjoint a ((walked.fresh a).mpr ⟨isKey, before⟩) after g other foundAfter ?_ foundOther
    -- the heads of the chain that were seen are in the map
    have climb {b c : CommitId} (isSeen : b ∈ seen) (path : TransGen (store.Chain metric) b c) :
        TransGen (FragmentState.BoundaryStep build.known) b c := by
      have step {b c : CommitId} (isSeen : b ∈ seen) (chain : store.Chain metric b c) :
          FragmentState.BoundaryStep build.known b c :=
        (boundaryStep_iff (walked.formed sound)).mpr ⟨walked.done b isSeen chain.1, chain⟩
      induction path with
      | single chain => exact .single (step isSeen chain)
      | tail path chain ih => exact ih.tail (step (walked.mem_seen_of_chain sound isSeen path) chain)
    exact climb isSeen path

end Walked

end CommitStore

namespace BuildCall

/-- **The call may fail**: the heads it can reach that are not known span nothing that a head up their
boundaries spans. -/
def MayFail (store : CommitStore Node LookupError) (metric : DepthMetric)
    (known : FinMap CommitId (FragmentState Node)) (call : BuildCall LookupError) : Prop :=
  ∀ head, store.Reached metric known call.headIds head → head ∉ known.keys → store.Buildable metric head →
    store.Apart metric head

def Fails (store : CommitStore Node LookupError) (metric : DepthMetric)
    (known : FinMap CommitId (FragmentState Node)) (call : BuildCall LookupError) : Prop :=
  ∃ failure, (call.run store metric known).2 = .error failure

theorem sound_step {store : CommitStore Node LookupError} {metric : DepthMetric}
    {known : FinMap CommitId (FragmentState Node)} {call : BuildCall LookupError}
    (sound : store.Sound metric known) (mayFail : call.Fails store metric known → call.MayFail store metric known) :
    store.Sound metric (call.step store metric known) := by
  unfold step
  rcases store.run_call metric known call with ⟨build, seen, runs, walked⟩ | ⟨build, stack, seen, failure, runs, walked⟩
  · rw [runs]
    exact walked.sound_of_finish sound
  · have fails : call.Fails store metric known := ⟨failure, by rw [runs]⟩
    rw [runs]
    exact walked.sound_of_apart sound (mayFail fails)

/-- **The members are disjoint along the boundaries after every run of calls**, failing ones and others, in
which a call that fails can only reach heads that are apart from what is up their boundaries. -/
theorem calls_disjoint (store : CommitStore Node LookupError) (metric : DepthMetric)
    (calls : List (BuildCall LookupError))
    (along : Along (BuildCall.step store metric)
      (fun known call => call.Fails store metric known → call.MayFail store metric known) ∅ calls) :
    FragmentState.DisjointAlong (calls.foldl (BuildCall.step store metric) ∅) := by
  have empty : store.Sound metric ∅ := ⟨by simp, by simp⟩
  have sound : store.Sound metric (calls.foldl (BuildCall.step store metric) ∅) :=
    along.keeps (fun _ _ sound mayFail => sound_step sound mayFail) empty
  exact sound.disjointAlong

end BuildCall

end Calls

/-! ### A failed lookup after two heads -/

/-- The lookup of another head fails after the third and the second commit got their fragments. -/
def failedCall : BuildCall Unit :=
  ⟨fun id => if id = .numbered 9 then some () else none, [.numbered 9, .numbered 3]⟩

def laterCall : BuildCall Unit := ⟨fun _ => none, [.numbered 9, .numbered 3]⟩

def membersAt (known : FinMap CommitId (FragmentState (Finset CommitId))) (a : CommitId) : Finset CommitId :=
  (known.get? a).elim ∅ FragmentState.members

theorem mem_membersAt {known : FinMap CommitId (FragmentState (Finset CommitId))} {a x : CommitId}
    (member : x ∈ membersAt known a) : ∃ state, known.get? a = some state ∧ x ∈ state.members := by
  unfold membersAt at member
  cases found : known.get? a with
  | none =>
    rw [found] at member
    exact absurd member (notMem_empty x)
  | some state =>
    rw [found] at member
    exact ⟨state, rfl, member⟩

attribute [local instance] IterOrder.ascending

theorem failed_call_run : (failedCall.run sharedStore sharedDepth ∅).2.isOk = false ∧
      (laterCall.run sharedStore sharedDepth (failedCall.step sharedStore sharedDepth ∅)).2.isOk = true ∧
      .numbered 1 ∈ membersAt ([failedCall, laterCall].foldl (BuildCall.step sharedStore sharedDepth) ∅)
        (.numbered 3) ∧
      .numbered 1 ∈ membersAt ([failedCall, laterCall].foldl (BuildCall.step sharedStore sharedDepth) ∅)
        (.numbered 2) ∧
      .numbered 2 ∈ ((([failedCall, laterCall].foldl (BuildCall.step sharedStore sharedDepth) ∅).get?
        (.numbered 3)).elim ∅ fun state => state.boundary.keys) := by
  decide +kernel

/-- **A failed call leaves an overlap**: a commit below two heads stays a member of both, and a later call
that succeeds does not take it out. -/
theorem overlap_after_failure : failedCall.Fails sharedStore sharedDepth ∅ ∧
      ¬ laterCall.Fails sharedStore sharedDepth (failedCall.step sharedStore sharedDepth ∅) ∧
      ¬ FragmentState.DisjointAlong ([failedCall, laterCall].foldl (BuildCall.step sharedStore sharedDepth) ∅) := by
  obtain ⟨failed, succeeded, inThird, inSecond, isBoundary⟩ := failed_call_run
  refine ⟨?_, fun ⟨failure, isFailure⟩ => ?_, fun disjoint => ?_⟩
  · unfold BuildCall.Fails
    cases result : (failedCall.run sharedStore sharedDepth ∅).2 with
    | error failure => exact ⟨failure, rfl⟩
    | ok fresh =>
      rw [result] at failed
      cases failed
  · rw [isFailure] at succeeded
    cases succeeded
  · obtain ⟨third, foundThird, member⟩ := mem_membersAt inThird
    obtain ⟨second, foundSecond, memberSecond⟩ := mem_membersAt inSecond
    rw [foundThird] at isBoundary
    have apart := disjoint _ third _ second foundThird (.single ⟨third, foundThird, isBoundary⟩) foundSecond
    exact Finset.disjoint_left.mp apart member memberSecond

theorem apart_of_level {depth : Nat} (head : CommitId) : sharedStore.Apart (fun _ => depth) head := by
  have alone {h x : CommitId} (spans : Span sharedStore.ParentOf (fun _ => depth) h x) : x = h :=
    spans.eq_or_depth_lt.resolve_right (lt_irrefl depth)
  intro g x above spans spansG
  obtain rfl : g = head := (alone spansG).symm.trans (alone spans)
  exact sharedStore_acyclic g above.path

theorem level_calls_disjoint : (failedCall.run sharedStore (fun _ => 1) ∅).2.isOk = false ∧
      ([failedCall, laterCall].foldl (BuildCall.step sharedStore fun _ => 1) ∅).keys.card = 3 ∧
      FragmentState.DisjointAlong ([failedCall, laterCall].foldl (BuildCall.step sharedStore fun _ => 1) ∅) := by
  refine ⟨by decide +kernel, by decide +kernel, BuildCall.calls_disjoint sharedStore (fun _ => 1) _ ?_⟩
  exact ⟨fun _ head _ _ _ => apart_of_level head, fun _ head _ _ _ => apart_of_level head, trivial⟩

end Subduction
