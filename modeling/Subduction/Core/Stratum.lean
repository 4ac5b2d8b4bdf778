/-
**What one fragment is.**

Over a store that serves every commit of an ancestor-closed set, a fragment is a stratum of the
commit graph (`Subduction.Lib.Strata`).

* **`fragment_eq_ok`** — one fragment: the span and the rim of its head, without what the known
  fragments at the boundary have. `fragment_nodes`: the boundary carries the nodes of the store.
-/

import Subduction.Core.Commit
import Subduction.Lib.Strata

set_option linter.unusedSectionVars false

namespace Subduction

open Relation Strata IterOrder Finset FinMap

variable {Node LookupError : Type} [Parents Node] [IterOrder CommitId]

/-! ### Ancestor members -/

namespace FragmentState

/-- One step up the boundary chain through the known fragments. -/
def BoundaryStep (known : FinMap CommitId (FragmentState Node)) (a b : CommitId) : Prop :=
  ∃ state, known.get? a = some state ∧ b ∈ state.boundary.keys

/-- The invariant of the walk up the boundary chain. -/
structure AncestorInv (known : FinMap CommitId (FragmentState Node)) (roots : Finset CommitId)
    (stack : List CommitId) (seen acc : Finset CommitId) : Prop where
  frontier : Worklist.Frontier (BoundaryStep known) (· ∈ roots) stack seen
  collected : ∀ x, x ∈ acc ↔ ∃ g ∈ seen, ∃ anc, known.get? g = some anc ∧ x ∈ anc.members

theorem AncestorInv.step {known : FinMap CommitId (FragmentState Node)} {roots : Finset CommitId}
    {b : CommitId} {stack : List CommitId} {seen acc : Finset CommitId}
    (inv : AncestorInv known roots (b :: stack) seen acc) :
    Worklist.Visited (AncestorInv known roots) (fun _ (failure : Empty) => failure.elim)
      (boundarySize known) known.keys b stack (insert b seen)
      (visitAncestor known (insert b seen) acc b) := by
  have collect : ∀ x, (∃ g ∈ insert b seen, ∃ anc, known.get? g = some anc ∧ x ∈ anc.members) ↔
      (∃ anc, known.get? b = some anc ∧ x ∈ anc.members) ∨ x ∈ acc := by
    intro x
    rw [inv.collected, exists_mem_insert]
  unfold visitAncestor
  cases found : known.get? b with
  | none =>
    refine ⟨⟨inv.frontier.step (by simp) ?_, fun x => ?_⟩, Nat.zero_le _, fun _ => rfl⟩
    · rintro c ⟨anc, foundAnc, -⟩
      exact absurd (found.symm.trans foundAnc) (by simp)
    · rw [collect, found]
      simp
  | some anc =>
    refine ⟨⟨inv.frontier.step ?_ ?_, fun x => ?_⟩, ?_, ?_⟩
    · intro c pushed
      exact ⟨anc, found, mem_list.mp pushed⟩
    · rintro c ⟨other, foundOther, member⟩
      obtain rfl := Option.some.inj (found.symm.trans foundOther)
      exact Or.inl (mem_list.mpr member)
    · rw [collect, found, mem_union, or_comm]
      simp
    · unfold boundarySize
      rw [found, length_list]
    · intro outside
      exact absurd (mem_keys_of_get? found) outside

theorem mem_transitiveAncestorMembers (state : FragmentState Node)
    (known : FinMap CommitId (FragmentState Node)) (x : CommitId) :
    x ∈ state.transitiveAncestorMembers known ↔
      ∃ b ∈ state.boundary.keys, ∃ g, ReflTransGen (BoundaryStep known) b g ∧
        ∃ anc, known.get? g = some anc ∧ x ∈ anc.members := by
  have outcome := Worklist.run_rule id (visitAncestor known)
    (AncestorInv known state.boundary.keys) (fun _ failure => failure.elim) (boundarySize known)
    known.keys (fun _ _ _ _ inv member => ⟨inv.frontier.skip member, inv.collected⟩)
    (fun _ _ _ _ inv _ => inv.step)
    (state.boundary.keys.card + ∑ b ∈ known.keys, boundarySize known b)
    (IterOrder.list state.boundary.keys).reverse ∅ ∅
    ⟨Worklist.Frontier.start _ (by simp [mem_list]), by simp⟩
    (by rw [List.length_reverse, length_list, Worklist.budget, sdiff_empty])
  unfold transitiveAncestorMembers
  generalize Worklist.run id (visitAncestor known) _ _ _ _ = result at outcome ⊢
  obtain ⟨⟨seen, acc⟩, failure⟩ := result
  cases failure with
  | some failure => exact failure.elim
  | none =>
    obtain ⟨frontier, collected⟩ := outcome
    rw [collected]
    simp only [frontier.mem_iff]
    constructor
    · rintro ⟨g, ⟨b, member, path⟩, rest⟩
      exact ⟨b, member, g, path, rest⟩
    · rintro ⟨b, member, g, path, rest⟩
      exact ⟨g, ⟨b, member, path⟩, rest⟩

/-- Two states are equal when they have the same head, members and checkpoints and the same nodes at
the same boundary. -/
theorem eq_of_fields {first second : FragmentState Node} (headId : first.headId = second.headId)
    (boundary : ∀ b, b ∈ first.boundary.keys ↔ b ∈ second.boundary.keys)
    (nodes : ∀ b node other, first.boundary.get? b = some node →
      second.boundary.get? b = some other → node = other)
    (members : ∀ x, x ∈ first.members ↔ x ∈ second.members)
    (checkpoints : ∀ x, x ∈ first.checkpoints ↔ x ∈ second.checkpoints) : first = second := by
  have sameBoundary : first.boundary = second.boundary := by
    ext b : 1
    cases stored : first.boundary.get? b with
    | none =>
      refine (FinMap.get?_eq_none.mpr ?_).symm
      rw [← boundary]
      exact FinMap.get?_eq_none.mp stored
    | some node =>
      obtain ⟨other, storedOther⟩ :=
        mem_keys.mp ((boundary b).mp (mem_keys_of_get? stored))
      rw [storedOther, nodes b node other stored storedOther]
  obtain ⟨_, _, _, _⟩ := first
  obtain ⟨_, _, _, _⟩ := second
  obtain rfl := headId
  obtain rfl := Finset.ext members
  obtain rfl := Finset.ext checkpoints
  obtain rfl := sameBoundary
  rfl

end FragmentState

/-! ### One fragment -/

namespace CommitStore

/-- **The store serves an ancestor-closed set** `within` of a commit graph: every commit of it is
found, with the parents the graph has, and nothing else is. -/
structure Serves (store : CommitStore Node LookupError) (edge : CommitId → CommitId → Prop)
    (within : CommitId → Prop) : Prop where
  found : ∀ a, within a →
    ∃ node, store.lookup a = .ok (some node) ∧ ∀ b, b ∈ Parents.parents node ↔ edge a b
  missing : ∀ a, ¬ within a → store.lookup a = .ok none
  closed : ∀ a b, within a → edge a b → within b

variable {store : CommitStore Node LookupError} {edge : CommitId → CommitId → Prop}
  {within : CommitId → Prop} {metric : DepthMetric}

variable {node : Node} {b head : CommitId}

theorem require_eq_ok {id : CommitId} :
    store.require id = .ok node ↔ store.lookup id = .ok (some node) := by
  unfold require
  cases store.lookup id with
  | error error => simp
  | ok stored => cases stored <;> simp

theorem width_eq {id : CommitId} (found : store.lookup id = .ok (some node)) :
    store.width id = (Parents.parents node).card := by
  unfold width
  rw [found]

theorem Serves.reach (serves : store.Serves edge within) {a : CommitId} (inside : within a)
    (path : ReflTransGen edge a b) : within b := by
  induction path with
  | refl => exact inside
  | tail _ step ih => exact serves.closed _ _ ih step

/-- The invariant of the walk of `fragment`. -/
structure WalkInv (edge : CommitId → CommitId → Prop) (metric : DepthMetric) (head : CommitId)
    (stack : List CommitId) (seen : Finset CommitId) (walk : Walk Node) : Prop where
  frontier : Worklist.Frontier (fun a b => edge a b ∧ (a = head ∨ metric a < metric head))
    (· = head) stack seen
  members : ∀ x, x ∈ walk.members ↔ x ∈ seen ∧ (x = head ∨ metric x < metric head)
  checkpoints : ∀ x, x ∈ walk.checkpoints ↔ x ∈ seen ∧ 0 < metric x ∧ metric x < metric head
  boundary : ∀ x, x ∈ walk.boundary.keys ↔ x ∈ seen ∧ x ≠ head ∧ metric head ≤ metric x

section

variable {stack : List CommitId} {seen : Finset CommitId} {walk : Walk Node} (inv : WalkInv edge metric head (b :: stack) seen walk)

include inv

theorem WalkInv.top_within
    (serves : store.Serves edge within) (inside : within head) : within b := by
  obtain ⟨root, rfl, path⟩ := inv.frontier.reached b (Or.inl List.mem_cons_self)
  exact serves.reach inside (ReflTransGen.mono (fun _ _ step => step.1) _ _ path)

theorem WalkInv.step_found
    (found : store.lookup b = .ok (some node)) (parents : ∀ c, c ∈ Parents.parents node ↔ edge b c)
    (headSeen : head ∈ seen) (fresh : b ∉ seen) (Fail : Walk Node → FragmentError LookupError → Prop) :
    Worklist.Visited (fun stack seen walk => WalkInv edge metric head stack seen walk ∧ head ∈ seen)
      Fail store.width store.ids b stack (insert b seen)
      (store.absorb metric (metric head) (insert b seen) walk b) := by
  have notHead : b ≠ head := fun same => fresh (same ▸ headSeen)
  have headSeen' : head ∈ insert b seen := mem_insert_of_mem headSeen
  unfold absorb
  rw [require_eq_ok.mpr found]
  by_cases deep : metric b ≥ metric head
  · simp only [if_pos deep]
    refine ⟨⟨⟨inv.frontier.step (by simp) ?_, fun x => ?_, fun x => ?_, fun x => ?_⟩, headSeen'⟩,
      Nat.zero_le _, fun _ => rfl⟩
    · rintro c ⟨-, isHead | shallow⟩
      · exact absurd isHead notHead
      · exact absurd deep (not_le.mpr shallow)
    · rw [inv.members, mem_insert]
      grind
    · rw [inv.checkpoints, mem_insert]
      grind
    · rw [keys_insert, mem_insert, inv.boundary, mem_insert]
      grind
  · simp only [if_neg deep]
    have shallow : metric b < metric head := not_le.mp deep
    refine ⟨⟨⟨inv.frontier.step ?_ ?_, fun x => ?_, fun x => ?_, fun x => ?_⟩, headSeen'⟩, ?_, ?_⟩
    · intro c pushed
      have member := mem_list.mp (List.mem_filter.mp pushed).1
      exact ⟨(parents c).mp member, Or.inr shallow⟩
    · rintro c ⟨step, -⟩
      by_cases known : c ∈ insert b seen
      · exact Or.inr known
      · refine Or.inl (List.mem_filter.mpr ⟨mem_list.mpr ((parents c).mpr step), ?_⟩)
        simpa using known
    · rw [mem_insert, inv.members, mem_insert]
      grind
    · by_cases positive : 0 < metric b
      · have counted : (Depth.isBoundary (metric b) && decide (metric b < metric head)) = true := by
          rw [Depth.isBoundary_iff.mpr positive, decide_eq_true shallow, Bool.and_self]
        rw [if_pos counted, mem_insert, inv.checkpoints, mem_insert]
        grind
      · have uncounted : ¬ (Depth.isBoundary (metric b) && decide (metric b < metric head)) = true := by
          rw [Bool.and_eq_true, Depth.isBoundary_iff]
          exact fun both => positive both.1
        rw [if_neg uncounted, inv.checkpoints, mem_insert]
        grind
    · rw [inv.boundary, mem_insert]
      grind
    · rw [width_eq found, ← length_list]
      exact List.length_filter_le _ _
    · exact fun outside => absurd (store.mem_ids found) outside

theorem WalkInv.step
    (serves : store.Serves edge within) (inside : within head) (headSeen : head ∈ seen)
    (fresh : b ∉ seen) :
    Worklist.Visited (fun stack seen walk => WalkInv edge metric head stack seen walk ∧ head ∈ seen)
      (fun _ (_ : FragmentError LookupError) => False) store.width store.ids b stack (insert b seen)
      (store.absorb metric (metric head) (insert b seen) walk b) := by
  obtain ⟨node, found, parents⟩ := serves.found b (inv.top_within serves inside)
  exact inv.step_found found parents headSeen fresh _

end

theorem WalkInv.start (parents : ∀ b, b ∈ Parents.parents node ↔ edge head b) :
    WalkInv edge metric head (IterOrder.list (Parents.parents node)).reverse {head}
      (⟨{head}, ∅, ∅⟩ : Walk Node) := by
  refine ⟨⟨?_, ?_, ?_⟩, ?_, ?_, ?_⟩
  · rintro a (pushed | isHead)
    · rw [List.mem_reverse, mem_list, parents] at pushed
      exact ⟨head, rfl, .single ⟨pushed, Or.inl rfl⟩⟩
    · rw [mem_singleton.mp isHead]
      exact ⟨head, rfl, .refl⟩
  · rintro root rfl
    exact Or.inr (mem_singleton_self _)
  · rintro a isHead b ⟨step, -⟩
    rw [mem_singleton.mp isHead, ← parents] at step
    exact Or.inl (List.mem_reverse.mpr (mem_list.mpr step))
  · intro x
    rw [mem_singleton]
    exact ⟨fun same => ⟨same, Or.inl same⟩, fun both => both.1⟩
  · intro x
    rw [mem_singleton]
    refine ⟨fun none => absurd none (notMem_empty x), ?_⟩
    rintro ⟨rfl, -, below⟩
    exact absurd below (lt_irrefl _)
  · intro x
    rw [mem_singleton, keys_empty]
    exact ⟨fun none => absurd none (notMem_empty x), fun both => absurd both.1 both.2.1⟩

section Finished

variable {head : CommitId} {seen : Finset CommitId} {walk : Walk Node}

variable (inv : WalkInv edge metric head [] seen walk)

include inv

theorem WalkInv.mem_seen (x : CommitId) :
    x ∈ seen ↔ Span edge metric head x ∨ Rim edge metric head x := by
  rw [inv.frontier.mem_iff, ← walk_iff]
  exact ⟨fun ⟨_, same, path⟩ => same ▸ path, fun path => ⟨head, rfl, path⟩⟩

theorem WalkInv.mem_members (x : CommitId) : x ∈ walk.members ↔ Span edge metric head x := by
  rw [inv.members, inv.mem_seen]
  constructor
  · rintro ⟨spans | rim, near⟩
    · exact spans
    · rcases near with rfl | shallow
      · exact .refl
      · exact absurd rim.choose_spec.2.2 (not_le.mpr shallow)
  · exact fun spans => ⟨Or.inl spans, spans.eq_or_depth_lt⟩

theorem WalkInv.mem_boundary (founded : WellFounded (Function.swap edge)) (b : CommitId) :
    b ∈ walk.boundary.keys ↔ Rim edge metric head b := by
  rw [inv.boundary, inv.mem_seen]
  constructor
  · rintro ⟨spans | rim, notHead, deep⟩
    · rcases spans.eq_or_depth_lt with isHead | shallow
      · exact absurd isHead notHead
      · exact absurd deep (not_le.mpr shallow)
    · exact rim
  · intro rim
    refine ⟨Or.inr rim, ?_, rim.choose_spec.2.2⟩
    rintro rfl
    exact irrefl founded _ rim.path

theorem WalkInv.mem_checkpoints (x : CommitId) :
    x ∈ walk.checkpoints ↔ Span edge metric head x ∧ 0 < metric x ∧ metric x < metric head := by
  rw [inv.checkpoints, inv.mem_seen]
  refine and_congr_left fun depths => ⟨?_, Or.inl⟩
  rintro (spans | rim)
  · exact spans
  · exact absurd rim.choose_spec.2.2 (not_le.mpr depths.2)

end Finished

/-- What is stripped from a fragment: the members of the known fragments at its boundary. -/
theorem mem_knownMembers {known : FinMap CommitId (FragmentState Node)}
    {boundary : Finset CommitId} {x : CommitId} :
    x ∈ knownMembers known boundary ↔
      ∃ b ∈ boundary, ∃ state, known.get? b = some state ∧ x ∈ state.members := by
  unfold knownMembers
  rw [mem_biUnion]
  refine exists_congr fun b => and_congr_right fun _ => ?_
  cases known.get? b <;> simp

theorem fragment_eq_ok (serves : store.Serves edge within)
    (founded : WellFounded (Function.swap edge)) (inside : within head)
    (positive : 0 < metric head) (known : FinMap CommitId (FragmentState Node)) :
    ∃ state, store.fragment head known metric = .ok state ∧ state.headId = head ∧
      (∀ b, b ∈ state.boundary.keys ↔ Rim edge metric head b) ∧
      (∀ x, x ∈ state.members ↔
        Span edge metric head x ∧ x ∉ knownMembers known state.boundary.keys) ∧
      ∀ x, x ∈ state.checkpoints ↔ x ∈ state.members ∧ 0 < metric x ∧ metric x < metric head := by
  obtain ⟨headNode, found, parents⟩ := serves.found head inside
  have outcome := Worklist.run_rule id (store.absorb metric (metric head))
    (fun stack seen walk => WalkInv edge metric head stack seen walk ∧ head ∈ seen)
    (fun _ _ => False) store.width store.ids
    (fun _ _ _ _ inv member => ⟨{ inv.1 with frontier := inv.1.frontier.skip member }, inv.2⟩)
    (fun _ _ _ _ inv fresh => inv.1.step serves inside inv.2 fresh) _ _ _ _
    ⟨WalkInv.start parents, mem_singleton_self head⟩
    (Nat.add_le_add_left (sum_le_sum_of_subset sdiff_subset) _)
  unfold fragment
  simp only [Depth.not_isBoundary_of_pos positive, Bool.false_eq_true, if_false, require_eq_ok.mpr found]
  generalize Worklist.run id (store.absorb metric (metric head)) _ _ _ _ = result at outcome ⊢
  obtain ⟨⟨seen, walk⟩, failure⟩ := result
  cases failure with
  | some failure => exact outcome.elim
  | none =>
    obtain ⟨inv, -⟩ := outcome
    refine ⟨_, rfl, rfl, inv.mem_boundary founded, fun x => ?_, fun x => ?_⟩
    · rw [mem_sdiff, inv.mem_members]
    · rw [mem_sdiff, mem_sdiff, inv.mem_checkpoints, inv.mem_members]
      exact and_right_comm

theorem fragment_nodes {state : FragmentState Node}
    {known : FinMap CommitId (FragmentState Node)}
    (built : store.fragment head known metric = .ok state)
    (stored : state.boundary.get? b = some node) : store.lookup b = .ok (some node) := by
  have walked := Worklist.run_keeps id (store.absorb metric (metric head))
    (fun walk => ∀ b node, walk.boundary.get? b = some node → store.lookup b = .ok (some node))
    (by
      intro seen walk id holds b node stored
      unfold absorb at stored
      cases required : store.require id with
      | error failure =>
        rw [required] at stored
        exact holds b node stored
      | ok found =>
        rw [required] at stored
        by_cases deep : metric id ≥ metric head
        · simp only [if_pos deep] at stored
          rcases of_get?_insert stored with ⟨rfl, rfl⟩ | ⟨-, older⟩
          · exact require_eq_ok.mp required
          · exact holds b node older
        · simp only [if_neg deep] at stored
          exact holds b node stored)
  have positive : (!Depth.isBoundary (metric head)) = false := by
    by_contra flat
    unfold fragment at built
    simp only [Bool.eq_true_of_not_eq_false flat, if_true, reduceCtorEq] at built
  unfold fragment at built
  simp only [positive, Bool.false_eq_true, if_false] at built
  cases required : store.require head with
  | error failure => simp only [required, reduceCtorEq] at built
  | ok headNode =>
    simp only [required] at built
    have holds := walked ((IterOrder.list (Parents.parents headNode)).reverse.length +
      ∑ id ∈ store.ids, store.width id) (IterOrder.list (Parents.parents headNode)).reverse {head}
      ⟨{head}, ∅, ∅⟩ (fun b node stored => absurd stored (by simp))
    generalize Worklist.run id (store.absorb metric (metric head)) _ _ _ _ = result
      at holds built
    obtain ⟨⟨seen, walk⟩, failure⟩ := result
    cases failure with
    | some failure => simp only [reduceCtorEq] at built
    | none =>
      obtain rfl := Except.ok.inj built
      exact holds b node stored

end CommitStore

end Subduction
