/-
**One horizon of the parallel builder.**

* **`parHorizon_eq_ok`** — the heads of a horizon, with their repetitions: the unknown ones on it, and
  the unknown parents of the commits of depth zero behind it.
* `parStates_eq_ok`, **`foldl_merge`** — the fragments of these heads, built from one snapshot, are
  drafts in the map they are merged into.
-/

import Subduction.Core.Build

set_option linter.unusedSectionVars false

namespace Subduction

open Relation Strata List

variable {Node LookupError : Type} [Parents Node] [IterOrder CommitId]

namespace CommitStore

variable {store : CommitStore Node LookupError} {edge : CommitId → CommitId → Prop}
  {within : CommitId → Prop} {metric : DepthMetric}
  {known : FinMap CommitId (FragmentState Node)}

/-! ### The heads of a horizon -/

theorem mem_unknownOf {ids : List CommitId} {a : CommitId} :
    a ∈ unknownOf known ids ↔ a ∈ ids ∧ a ∉ known.keys := by
  unfold unknownOf
  rw [mem_filter, decide_eq_true_eq]

theorem not_isBoundary_iff {a : CommitId} : ¬ Depth.isBoundary (metric a) = true ↔ ¬ 0 < metric a := by
  rw [Depth.isBoundary_iff]

/-- **Sifting a list**: the heads are appended, what is met for the first time is pending. -/
theorem foldl_sift (metric : DepthMetric) (ids : List CommitId) :
    ∀ walk : LooseWalk, ∃ new : List CommitId, new.Nodup ∧
      (∀ a, a ∈ new ↔ a ∈ ids ∧ ¬ 0 < metric a ∧ a ∉ walk.visited) ∧
      ids.foldl (LooseWalk.sift metric) walk = ⟨walk.visited ∪ new.toFinset,
        new.reverse ++ walk.pending, walk.horizon ++ ids.filter fun a => Depth.isBoundary (metric a)⟩ := by
  induction ids with
  | nil =>
    intro walk
    exact ⟨[], nodup_nil, by simp, by simp⟩
  | cons id ids ih =>
    intro walk
    by_cases head : Depth.isBoundary (metric id) = true
    · obtain ⟨new, nodup, members, folded⟩ := ih { walk with horizon := walk.horizon ++ [id] }
      refine ⟨new, nodup, fun a => ?_, ?_⟩
      · rw [members, mem_cons]
        have positive := Depth.isBoundary_iff.mp head
        grind
      · rw [foldl_cons, LooseWalk.sift, if_pos head, folded, filter_cons, if_pos head,
          append_assoc, singleton_append]
    · have flat := not_isBoundary_iff.mp head
      by_cases visited : id ∈ walk.visited
      · obtain ⟨new, nodup, members, folded⟩ := ih walk
        refine ⟨new, nodup, fun a => ?_, ?_⟩
        · rw [members, mem_cons]
          grind
        · rw [foldl_cons, LooseWalk.sift, if_neg head, if_pos visited, folded,
            filter_cons, if_neg head]
      · obtain ⟨new, nodup, members, folded⟩ := ih
          { walk with visited := insert id walk.visited, pending := id :: walk.pending }
        refine ⟨id :: new, nodup_cons.mpr ⟨fun again => ?_, nodup⟩, fun a => ?_, ?_⟩
        · exact ((members id).mp again).2.2 (Finset.mem_insert_self id _)
        · rw [mem_cons, members, mem_cons, Finset.mem_insert]
          grind
        · rw [foldl_cons, LooseWalk.sift, if_neg head, if_neg visited, folded,
            filter_cons, if_neg head]
          congr 1
          · ext a
            simp only [Finset.mem_union, Finset.mem_insert, mem_toFinset, mem_cons]
            tauto
          · simp

def parentList (store : CommitStore Node LookupError) (id : CommitId) : List CommitId :=
  match store.lookup id with
  | .ok (some node) => IterOrder.list (Parents.parents node)
  | _ => []

theorem length_parentList (store : CommitStore Node LookupError) (id : CommitId) :
    (store.parentList id).length = store.width id := by
  unfold parentList width
  cases store.lookup id with
  | error error => rfl
  | ok stored =>
    cases stored with
    | none => rfl
    | some node => exact IterOrder.length_list (Parents.parents node)

theorem Serves.mem_parentList (serves : store.Serves edge within) {a b : CommitId} :
    b ∈ store.parentList a ↔ within a ∧ edge a b := by
  unfold parentList
  by_cases here : within a
  · obtain ⟨node, found, parents⟩ := serves.found a here
    simp only [found, IterOrder.mem_list, parents, here, true_and]
  · simp only [serves.missing a here, not_mem_nil, here, false_and]

theorem Serves.nodup_parentList (serves : store.Serves edge within) (a : CommitId) :
    (store.parentList a).Nodup := by
  unfold parentList
  by_cases here : within a
  · obtain ⟨node, found, -⟩ := serves.found a here
    simp only [found]
    exact IterOrder.nodup_list _
  · simp only [serves.missing a here, nodup_nil]

/-- From a commit of depth zero to a parent of depth zero that is no known fragment. -/
def LooseStep (edge : CommitId → CommitId → Prop) (within : CommitId → Prop) (metric : DepthMetric)
    (known : FinMap CommitId (FragmentState Node)) (a b : CommitId) : Prop :=
  (within a ∧ edge a b) ∧ b ∉ known.keys ∧ ¬ 0 < metric b

/-- **The commits of depth zero behind a horizon**, on walks through such commits. -/
def LooseFrom (edge : CommitId → CommitId → Prop) (within : CommitId → Prop) (metric : DepthMetric)
    (known : FinMap CommitId (FragmentState Node)) (horizon : List CommitId) (a : CommitId) : Prop :=
  ∃ root, (root ∈ horizon ∧ root ∉ known.keys ∧ ¬ 0 < metric root) ∧
    ReflTransGen (LooseStep edge within metric known) root a

def headsOf (metric : DepthMetric) (known : FinMap CommitId (FragmentState Node))
    (ids : List CommitId) : List CommitId :=
  (unknownOf known ids).filter fun a => Depth.isBoundary (metric a)

theorem mem_headsOf {ids : List CommitId} {a : CommitId} :
    a ∈ headsOf metric known ids ↔ a ∈ ids ∧ a ∉ known.keys ∧ 0 < metric a := by
  unfold headsOf
  rw [mem_filter, mem_unknownOf, Depth.isBoundary_iff, and_assoc]

/-- The invariant of the loop over the pending commits, with those looked up so far. -/
structure LooseInv (store : CommitStore Node LookupError) (edge : CommitId → CommitId → Prop)
    (within : CommitId → Prop) (metric : DepthMetric) (known : FinMap CommitId (FragmentState Node))
    (horizon popped : List CommitId) (walk : LooseWalk) : Prop where
  frontier : Worklist.Frontier (LooseStep edge within metric known)
    (fun a => a ∈ horizon ∧ a ∉ known.keys ∧ ¬ 0 < metric a) walk.pending popped.toFinset
  nodup : (popped ++ walk.pending).Nodup
  visited : ∀ a, a ∈ walk.visited ↔ a ∈ popped ∨ a ∈ walk.pending
  heads : walk.horizon = headsOf metric known horizon ++
    popped.flatMap fun d => headsOf metric known (store.parentList d)

section Loose

variable {horizon popped : List CommitId} {walk : LooseWalk}

theorem LooseInv.start (store : CommitStore Node LookupError) (edge : CommitId → CommitId → Prop)
    (within : CommitId → Prop) (metric : DepthMetric) (known : FinMap CommitId (FragmentState Node))
    (horizon : List CommitId) :
    LooseInv store edge within metric known horizon []
      ((unknownOf known horizon).foldl (LooseWalk.sift metric) ⟨∅, [], []⟩) ∧
    ((unknownOf known horizon).foldl (LooseWalk.sift metric) ⟨∅, [], []⟩).pending.length ≤
      (unknownOf known horizon).length := by
  obtain ⟨new, nodup, members, folded⟩ := foldl_sift metric (unknownOf known horizon) ⟨∅, [], []⟩
  rw [folded]
  refine ⟨⟨Worklist.Frontier.start _ fun a => ?_, ?_, fun a => ?_, ?_⟩, ?_⟩
  · rw [append_nil, mem_reverse, members, mem_unknownOf, and_assoc]
    simp only [Finset.notMem_empty, not_false_eq_true, and_true]
  · rw [nil_append, append_nil]
    exact nodup_reverse.mpr nodup
  · simp
  · simp [headsOf]
  · rw [append_nil, length_reverse]
    exact nodup.length_le_of_subset fun a listed => ((members a).mp listed).1

theorem LooseInv.step {id : CommitId} {pending : List CommitId}
    (inv : LooseInv store edge within metric known horizon popped walk)
    (serves : store.Serves edge within) (top : walk.pending = id :: pending) :
    ∃ next, LooseInv store edge within metric known horizon (popped ++ [id]) next ∧
      next.pending.length ≤ pending.length + store.width id ∧
      ∀ fuel, store.walkLoose metric known (fuel + 1) walk = store.walkLoose metric known fuel next := by
  have frontier := inv.frontier
  have nodup := inv.nodup
  rw [top] at frontier nodup
  have seen : (popped ++ [id]).toFinset = insert id popped.toFinset := by
    ext a
    simp
  obtain ⟨new, nodupNew, members, folded⟩ :=
    foldl_sift metric (unknownOf known (store.parentList id)) { walk with pending := pending }
  have newIff : ∀ a, a ∈ new ↔ LooseStep edge within metric known id a ∧ a ∉ walk.visited := by
    intro a
    rw [members, mem_unknownOf, serves.mem_parentList]
    unfold LooseStep
    tauto
  refine ⟨(unknownOf known (store.parentList id)).foldl (LooseWalk.sift metric)
    { walk with pending := pending }, ?_, ?_, fun fuel => ?_⟩
  · rw [folded]
    refine ⟨?_, ?_, fun a => ?_, ?_⟩
    · rw [seen]
      refine frontier.expand (fun a listed => ((newIff a).mp listed).1) fun a step => ?_
      by_cases visited : a ∈ walk.visited
      · rcases (inv.visited a).mp visited with before | waiting
        · exact Or.inr (Finset.mem_insert_of_mem (mem_toFinset.mpr before))
        · rw [top] at waiting
          rcases mem_cons.mp waiting with same | later
          · exact Or.inr (same ▸ Finset.mem_insert_self _ _)
          · exact Or.inl (Or.inr later)
      · exact Or.inl (Or.inl ((newIff a).mpr ⟨step, visited⟩))
    · have rest : ((popped ++ [id]) ++ pending).Nodup := by
        rw [append_assoc, singleton_append]
        exact nodup
      have apart : ∀ a ∈ new, a ∉ popped ∧ a ∉ id :: pending := by
        intro a listed
        have unvisited := ((newIff a).mp listed).2
        rw [inv.visited, top] at unvisited
        exact not_or.mp unvisited
      show ((popped ++ [id]) ++ (new.reverse ++ pending)).Nodup
      rw [nodup_append, nodup_append] at *
      grind
    · simp only [Finset.mem_union, mem_toFinset, mem_append, mem_reverse, inv.visited,
        top, mem_cons]
      tauto
    · show walk.horizon ++ _ = _
      rw [inv.heads, append_assoc, flatMap_append, flatMap_singleton]
      rfl
  · rw [folded]
    show (new.reverse ++ pending).length ≤ _
    rw [length_append, length_reverse, Nat.add_comm]
    refine Nat.add_le_add_left ?_ _
    have shorter : new.length ≤ (store.parentList id).length :=
      nodupNew.length_le_of_subset fun a listed => (mem_unknownOf.mp ((members a).mp listed).1).1
    exact shorter.trans (store.length_parentList id).le
  · rw [walkLoose, top]
    unfold parentList
    by_cases here : within id
    · obtain ⟨node, found, -⟩ := serves.found id here
      simp only [found]
    · simp only [serves.missing id here, unknownOf, filter_nil, foldl_nil]

theorem walkLoose_eq_ok (serves : store.Serves edge within) :
    ∀ fuel popped walk, LooseInv store edge within metric known horizon popped walk →
      walk.pending.length + Worklist.budget store.width store.ids popped.toFinset ≤ fuel →
      ∃ done : List CommitId, done.Nodup ∧
        (∀ d, d ∈ done ↔ LooseFrom edge within metric known horizon d) ∧
        store.walkLoose metric known fuel walk = .ok (headsOf metric known horizon ++
          done.flatMap fun d => headsOf metric known (store.parentList d)) := by
  have finished : ∀ fuel popped walk, LooseInv store edge within metric known horizon popped walk →
      walk.pending = [] → ∃ done : List CommitId, done.Nodup ∧
        (∀ d, d ∈ done ↔ LooseFrom edge within metric known horizon d) ∧
        store.walkLoose metric known fuel walk = .ok (headsOf metric known horizon ++
          done.flatMap fun d => headsOf metric known (store.parentList d)) := by
    intro fuel popped walk inv empty
    have frontier := inv.frontier
    have nodup := inv.nodup
    rw [empty] at frontier nodup
    refine ⟨popped, by rwa [append_nil] at nodup, fun d => ?_, ?_⟩
    · rw [← mem_toFinset, frontier.mem_iff]
      exact Iff.rfl
    · rw [← inv.heads]
      cases fuel with
      | zero => rfl
      | succ fuel => rw [walkLoose, empty]
  intro fuel
  induction fuel with
  | zero =>
    intro popped walk inv enough
    exact finished 0 popped walk inv (eq_nil_of_length_eq_zero (by omega))
  | succ fuel ih =>
    intro popped walk inv enough
    cases top : walk.pending with
    | nil => exact finished (fuel + 1) popped walk inv top
    | cons id pending =>
      obtain ⟨next, invNext, bounded, runs⟩ := inv.step serves top
      rw [runs]
      refine ih (popped ++ [id]) next invNext ?_
      have seen : (popped ++ [id]).toFinset = insert id popped.toFinset := by
        ext a
        simp
      have unseen : id ∉ popped.toFinset := by
        have nodup := inv.nodup
        rw [top, nodup_append] at nodup
        rw [mem_toFinset]
        exact fun before => nodup.2.2 id before id mem_cons_self rfl
      rw [top, length_cons] at enough
      rw [seen]
      by_cases inside : id ∈ store.ids
      · have spent := Worklist.budget_insert store.width store.ids popped.toFinset inside unseen
        omega
      · have spent := Worklist.budget_insert_le store.width store.ids popped.toFinset id
        have noWidth : store.width id = 0 := by
          unfold width
          split
          · exact absurd (store.mem_ids ‹_›) inside
          · rfl
        omega

theorem parHorizon_eq_ok (serves : store.Serves edge within) (metric : DepthMetric)
    (known : FinMap CommitId (FragmentState Node)) (horizon : List CommitId) :
    ∃ done : List CommitId, done.Nodup ∧
      (∀ d, d ∈ done ↔ LooseFrom edge within metric known horizon d) ∧
      store.parHorizon metric known horizon = .ok (headsOf metric known horizon ++
        done.flatMap fun d => headsOf metric known (store.parentList d)) := by
  obtain ⟨inv, short⟩ := LooseInv.start store edge within metric known horizon
  obtain ⟨done, nodup, members, runs⟩ := walkLoose_eq_ok serves
    ((unknownOf known horizon).length + ∑ id ∈ store.ids, store.width id) [] _ inv
    (Nat.add_le_add short (Finset.sum_le_sum_of_subset Finset.sdiff_subset))
  refine ⟨done, nodup, members, ?_⟩
  unfold parHorizon
  simp only [runs]
  congr 1
  -- nothing on the horizon became known
  refine filter_eq_self.mpr fun a listed => decide_eq_true ?_
  rcases mem_append.mp listed with onHorizon | behind
  · exact (mem_headsOf.mp onHorizon).2.1
  · obtain ⟨d, -, isParent⟩ := mem_flatMap.mp behind
    exact (mem_headsOf.mp isParent).2.1

end Loose

/-! ### One level -/

def holds (store : CommitStore Node LookupError) (id : CommitId) : Bool :=
  match store.lookup id with
  | .ok (some _) => true
  | _ => false

theorem Serves.holds_iff (serves : store.Serves edge within) {a : CommitId} :
    store.holds a = true ↔ within a := by
  unfold holds
  by_cases here : within a
  · obtain ⟨node, found, -⟩ := serves.found a here
    simp only [found, here]
  · simp only [serves.missing a here, here, Bool.false_eq_true]

theorem parStates_eq_ok (serves : store.Serves edge within)
    (founded : WellFounded (Function.swap edge)) (snapshot : FinMap CommitId (FragmentState Node))
    (heads : List CommitId) (positive : ∀ h ∈ heads, 0 < metric h) :
    ∃ states, store.parStates metric snapshot heads = .ok states ∧
      states.map Prod.fst = heads.filter store.holds ∧
      ∀ item ∈ states, store.fragment item.1 snapshot metric = .ok item.2 := by
  induction heads with
  | nil => exact ⟨[], rfl, rfl, by simp⟩
  | cons head heads ih =>
    obtain ⟨states, runs, firsts, built⟩ := ih fun h listed => positive h (mem_cons_of_mem _ listed)
    have positiveHead := positive head mem_cons_self
    by_cases here : within head
    · obtain ⟨state, builtHead, -⟩ := fragment_eq_ok serves founded here positiveHead snapshot
      refine ⟨(head, state) :: states, ?_, ?_, ?_⟩
      · rw [parStates, builtHead]
        simp only [runs, Except.map]
      · rw [map_cons, firsts, filter_cons, if_pos (serves.holds_iff.mpr here)]
      · intro item listed
        rcases mem_cons.mp listed with rfl | later
        · exact builtHead
        · exact built item later
    · refine ⟨states, ?_, ?_, built⟩
      · have skipped : store.fragment head snapshot metric = .error (.missingCommit head) := by
          unfold fragment require
          simp only [Depth.isBoundary_iff.mpr positiveHead, serves.missing head here, Bool.not_true,
            Bool.false_eq_true, if_false]
        rw [parStates, skipped]
        exact runs
      · rw [firsts, filter_cons, if_neg fun found => here (serves.holds_iff.mp found)]

theorem foldl_merge {old snapshot : FinMap CommitId (FragmentState Node)}
    (serves : store.Serves edge within) (founded : WellFounded (Function.swap edge))
    (before : Drafted store edge metric old snapshot)
    (states : List (CommitId × FragmentState Node))
    (places : ∀ item ∈ states, within item.1 ∧ 0 < metric item.1 ∧ item.1 ∉ snapshot.keys)
    (built : ∀ item ∈ states, store.fragment item.1 snapshot metric = .ok item.2) :
    ∀ build : Build Node, Drafted store edge metric old build.known →
      (∀ a state, snapshot.get? a = some state → build.known.get? a = some state) →
      (∀ a state, build.known.get? a = some state → a ∉ snapshot.keys →
        store.fragment a snapshot metric = .ok state) →
      Drafted store edge metric old (states.foldl Build.merge build).known ∧
        (∀ a, a ∈ (states.foldl Build.merge build).known.keys ↔
          a ∈ build.known.keys ∨ a ∈ states.map Prod.fst) ∧
        (states.foldl Build.merge build).freshHeads = build.freshHeads ++ states.map Prod.fst := by
  induction states with
  | nil =>
    intro build drafted _ _
    exact ⟨drafted, by simp, by simp⟩
  | cons item states ih =>
    intro build drafted grows fromSnapshot
    obtain ⟨here, positive, unknown⟩ := places item mem_cons_self
    have builtItem := built item mem_cons_self
    have again : ∀ other, build.known.get? item.1 = some other → other = item.2 := fun other found =>
      Except.ok.inj ((fromSnapshot item.1 other found unknown).symm.trans builtItem)
    have merged := drafted.insert before grows serves founded here positive builtItem again
    have step := ih (fun next listed => places next (mem_cons_of_mem _ listed))
      (fun next listed => built next (mem_cons_of_mem _ listed)) (build.merge item) merged
      (fun a state found => ?_) (fun a state found fresh => ?_)
    · refine ⟨step.1, fun a => ?_, ?_⟩
      · rw [foldl_cons, step.2.1, map_cons, mem_cons, ← or_assoc]
        refine or_congr_left ?_
        unfold Build.merge
        rw [FinMap.keys_insert, Finset.mem_insert, or_comm]
      · rw [foldl_cons, step.2.2, map_cons]
        unfold Build.merge
        rw [append_assoc, singleton_append]
    · have different : a ≠ item.1 := fun same => unknown (same ▸ FinMap.mem_keys_of_get? found)
      unfold Build.merge
      rw [FinMap.get?_insert_of_ne _ _ different]
      exact grows a state found
    · unfold Build.merge at found
      rcases FinMap.of_get?_insert found with ⟨rfl, rfl⟩ | ⟨-, older⟩
      · exact builtItem
      · exact fromSnapshot a state older fresh

end CommitStore

end Subduction
