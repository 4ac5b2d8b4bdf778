/-
**Which commits a simplification returns, by paths to children.**

The walk of `simplify` goes from the tips to the parents and carries the head of the range along. Read the
other way, a commit is returned when some path through commits of depth zero leads from it to children
until it ends at a tip of depth zero, or at a commit of positive depth that no fragment has by head or
checkpoint.

* **`met_none_iff`**, **`met_some_iff`** — the paths of the walk.
* **`mem_simplify_iff_returned`**.
-/

import Subduction.Core.EdgeLists
import Subduction.Core.Fixpoint

set_option linter.unusedSectionVars false

namespace Subduction

open Relation CommitDag List

/-! ### The specification -/

/-- **A step to a child**, from a commit of depth zero. -/
def Descends (commits : List LooseCommit) (metric : DepthMetric) (commit child : LooseCommit) : Prop :=
  metric commit.head = 0 ∧ child ∈ commits ∧ commit.head ∈ child.parents

def FlatTip (commits : List LooseCommit) (metric : DepthMetric) (commit : LooseCommit) : Prop :=
  metric commit.head = 0 ∧ ∀ child ∈ commits, commit.head ∉ child.parents

/-- The head of a range that no fragment has, by head or checkpoint. -/
def OpenHead (fragments : List Fragment) (metric : DepthMetric) (commit : LooseCommit) : Prop :=
  0 < metric commit.head ∧ ∀ fragment ∈ fragments,
    fragment.head ≠ commit.head ∧ Checkpoint.new commit.head ∉ fragment.checkpoints

/-- **The commit is returned**: it leads to a tip of depth zero, or to the head of a range that no fragment
has. -/
def Returned (commits : List LooseCommit) (fragments : List Fragment) (metric : DepthMetric)
    (commit : LooseCommit) : Prop :=
  ∃ last, ReflTransGen (Descends commits metric) commit last ∧
    (FlatTip commits metric last ∨ OpenHead fragments metric last)

def AcyclicCommits (commits : List LooseCommit) : Prop :=
  ∀ commit, ¬ TransGen (fun child parent : LooseCommit =>
    child ∈ commits ∧ parent ∈ commits ∧ parent.head ∈ child.parents) commit commit

/-! ### The paths of the walk -/

namespace CommitDag

variable [IterOrder CommitId] {dag : CommitDag} {strategy : DepthMetric}

def Flat (dag : CommitDag) (strategy : DepthMetric) (node parent : CommitId) : Prop :=
  parent ∈ dag.parents node ∧ strategy parent = 0

variable {id : CommitId} {range : Option CommitId}

theorem rangeAt_eq_none : rangeAt strategy id range = none ↔ strategy id = 0 ∧ range = none := by
  by_cases positive : 0 < strategy id
  · rw [rangeAt_of_positive positive]
    exact iff_of_false (Option.some_ne_none id) fun both => positive.ne' both.1
  · rw [rangeAt_of_flat positive]
    exact (and_iff_right (Nat.eq_zero_of_not_pos positive)).symm

theorem met_tip (isTip : id ∈ dag.tips) : dag.Met strategy id (rangeAt strategy id none) :=
  ⟨(id, rangeAt strategy id none), ⟨isTip, rfl⟩, .refl⟩

theorem Met.step {parent : CommitId} (met : dag.Met strategy id range)
    (isParent : parent ∈ dag.parents id) : dag.Met strategy parent (rangeAt strategy parent range) := by
  obtain ⟨root, isRoot, path⟩ := met
  exact ⟨root, isRoot, path.tail ⟨isParent, rfl⟩⟩

theorem met_cases (met : dag.Met strategy id range) :
    (id ∈ dag.tips ∧ range = rangeAt strategy id none) ∨
      ∃ child before, dag.Met strategy child before ∧ id ∈ dag.parents child ∧
        range = rangeAt strategy id before := by
  obtain ⟨root, isRoot, path⟩ := met
  rcases path.cases_tail with same | ⟨⟨child, before⟩, path, isParent, atParent⟩
  · obtain rfl := same
    exact Or.inl isRoot
  · exact Or.inr ⟨child, before, ⟨root, isRoot, path⟩, isParent, atParent⟩

theorem met_induction {motive : CommitId → Option CommitId → Prop}
    (tip : ∀ id ∈ dag.tips, motive id (rangeAt strategy id none))
    (step : ∀ child id before, dag.Met strategy child before → motive child before → id ∈ dag.parents child →
      motive id (rangeAt strategy id before))
    (met : dag.Met strategy id range) : motive id range := by
  obtain ⟨⟨root, start⟩, ⟨isTip, atRoot⟩, path⟩ := met
  change start = rangeAt strategy root none at atRoot
  subst atRoot
  generalize isPair : (id, range) = pair at path
  have general : motive pair.1 pair.2 ∧ dag.Met strategy pair.1 pair.2 := by
    clear isPair
    induction path with
    | refl => exact ⟨tip root isTip, met_tip isTip⟩
    | @tail p q _ next ih =>
      obtain ⟨parent, after⟩ := q
      obtain ⟨isParent, atParent⟩ := next
      change after = rangeAt strategy parent p.2 at atParent
      subst atParent
      exact ⟨step p.1 parent p.2 ih.2 ih.1 isParent, ih.2.step isParent⟩
  rw [← isPair] at general
  exact general.1

theorem met_none_iff : dag.Met strategy id none ↔
    ∃ tip ∈ dag.tips, strategy tip = 0 ∧ ReflTransGen (dag.Flat strategy) tip id := by
  constructor
  · intro met
    refine met_induction (motive := fun id range => range = none → ∃ tip ∈ dag.tips,
      strategy tip = 0 ∧ ReflTransGen (dag.Flat strategy) tip id) ?_ ?_ met rfl
    · intro id isTip outside
      exact ⟨id, isTip, (rangeAt_eq_none.mp outside).1, .refl⟩
    · intro child id before _ ih isParent outside
      obtain ⟨flat, before⟩ := rangeAt_eq_none.mp outside
      obtain ⟨tip, isTip, isFlat, path⟩ := ih before
      exact ⟨tip, isTip, isFlat, path.tail ⟨isParent, flat⟩⟩
  · rintro ⟨tip, isTip, isFlat, path⟩
    induction path with
    | refl =>
      have met : dag.Met strategy tip (rangeAt strategy tip none) := met_tip isTip
      rwa [rangeAt_eq_none.mpr ⟨isFlat, rfl⟩] at met
    | tail _ flat ih =>
      have met := Met.step ih flat.1
      rwa [rangeAt_eq_none.mpr ⟨flat.2, rfl⟩] at met

theorem met_some_iff {head : CommitId} : dag.Met strategy id (some head) ↔
    0 < strategy head ∧ (∃ range, dag.Met strategy head range) ∧ ReflTransGen (dag.Flat strategy) head id := by
  constructor
  · intro met
    refine met_induction (motive := fun id range => range = some head →
      0 < strategy head ∧ (∃ range, dag.Met strategy head range) ∧
        ReflTransGen (dag.Flat strategy) head id) ?_ ?_ met rfl
    · intro id isTip isHead
      by_cases positive : 0 < strategy id
      · rw [rangeAt_of_positive positive] at isHead
        obtain rfl := Option.some.inj isHead
        exact ⟨positive, ⟨_, met_tip isTip⟩, .refl⟩
      · rw [rangeAt_of_flat positive] at isHead
        cases isHead
    · intro child id before metChild ih isParent isHead
      by_cases positive : 0 < strategy id
      · rw [rangeAt_of_positive positive] at isHead
        obtain rfl := Option.some.inj isHead
        exact ⟨positive, ⟨_, metChild.step isParent⟩, .refl⟩
      · rw [rangeAt_of_flat positive] at isHead
        obtain ⟨positiveHead, metHead, path⟩ := ih isHead
        exact ⟨positiveHead, metHead, path.tail ⟨isParent, Nat.eq_zero_of_not_pos positive⟩⟩
  · rintro ⟨positive, ⟨range, met⟩, path⟩
    induction path with
    | refl =>
      rcases met_cases met with ⟨isTip, rfl⟩ | ⟨child, before, metChild, isParent, rfl⟩
      · rw [rangeAt_of_positive positive] at met
        exact met
      · rw [rangeAt_of_positive positive] at met
        exact met
    | tail _ flat ih =>
      have next := Met.step ih flat.1
      rwa [rangeAt_of_flat (by rw [flat.2]; exact lt_irrefl 0)] at next

end CommitDag

/-! ### From parents to children -/

section Commits

variable [IterOrder CommitId] {commits : List LooseCommit} {metric : DepthMetric}

theorem mem_parents_fromCommits {parent : CommitId} {child : LooseCommit}
    (distinct : (commits.map LooseCommit.head).Nodup) (isChild : child ∈ commits) :
    parent ∈ (CommitDag.fromCommits commits).parents child.head ↔
      parent ∈ child.parents ∧ parent ∈ commits.map LooseCommit.head := by
  rw [mem_parents, mem_edges_fromCommits]
  constructor
  · rintro ⟨other, isOther, isParent, present, sameHead⟩
    obtain rfl := inj_on_of_nodup_map distinct isChild isOther sameHead
    exact ⟨isParent, present⟩
  · rintro ⟨isParent, present⟩
    exact ⟨child, isChild, isParent, present, rfl⟩

variable {commit : LooseCommit}

theorem mem_tips_fromCommits (member : commit ∈ commits) :
    commit.head ∈ (CommitDag.fromCommits commits).tips ↔ ∀ child ∈ commits, commit.head ∉ child.parents := by
  rw [mem_tips, nodes_fromCommits]
  refine (and_iff_right (mem_map_of_mem member)).trans ⟨fun childless child isChild isParent => ?_,
    fun childless child isEdge => ?_⟩
  · exact childless child.head (mem_edges_fromCommits.mpr
      ⟨child, isChild, isParent, mem_map_of_mem member, rfl⟩)
  · obtain ⟨other, isOther, isParent, -⟩ := mem_edges_fromCommits.mp isEdge
    exact childless other isOther isParent

section

variable (distinct : (commits.map LooseCommit.head).Nodup)

include distinct

theorem flat_of_descends {last : LooseCommit}
    (member : commit ∈ commits) (path : ReflTransGen (Descends commits metric) commit last) :
    last ∈ commits ∧
      ReflTransGen ((CommitDag.fromCommits commits).Flat metric) last.head commit.head := by
  induction path with
  | refl => exact ⟨member, .refl⟩
  | @tail middle child _ descends ih =>
    obtain ⟨flat, isChild, isParent⟩ := descends
    have isEdge := (mem_parents_fromCommits distinct isChild).mpr ⟨isParent, mem_map_of_mem ih.1⟩
    exact ⟨isChild, ReflTransGen.head ⟨isEdge, flat⟩ ih.2⟩

theorem descends_of_flat {head : LooseCommit} (member : commit ∈ commits) (isHead : head ∈ commits)
    (path : ReflTransGen ((CommitDag.fromCommits commits).Flat metric) head.head commit.head) :
    ReflTransGen (Descends commits metric) commit head := by
  have general : ∀ {id}, ReflTransGen ((CommitDag.fromCommits commits).Flat metric) head.head id →
      ∀ commit ∈ commits, commit.head = id → ReflTransGen (Descends commits metric) commit head := by
    intro id path
    induction path with
    | refl =>
      intro commit member same
      rw [inj_on_of_nodup_map distinct member isHead same]
    | @tail above id path flat ih =>
      rintro commit member rfl
      obtain ⟨isParent, isFlat⟩ := flat
      obtain ⟨child, isChild, isListed, -, isAbove⟩ :=
        mem_edges_fromCommits.mp (mem_parents.mp isParent)
      exact ReflTransGen.head ⟨isFlat, isChild, isListed⟩ (ih child isChild isAbove.symm)
  exact general path commit member rfl

theorem exists_met_fromCommits
    (acyclic : AcyclicCommits commits) (metric : DepthMetric) (member : commit ∈ commits) :
    ∃ range, (CommitDag.fromCommits commits).Met metric commit.head range := by
  obtain ⟨top, isTop, path, source⟩ := Strata.exists_source commits.toFinset
    (fun child parent (link : child ∈ commits ∧ parent ∈ commits ∧ parent.head ∈ child.parents) =>
      mem_toFinset.mpr link.1) acyclic (mem_toFinset.mpr member)
  induction path with
  | refl =>
    refine ⟨_, met_tip ((mem_tips_fromCommits (mem_toFinset.mp isTop)).mpr ?_)⟩
    exact fun child isChild isParent => source child ⟨isChild, mem_toFinset.mp isTop, isParent⟩
  | tail _ link ih =>
    obtain ⟨range, met⟩ := ih link.1
    exact ⟨_, met.step ((mem_parents_fromCommits distinct link.1).mpr
      ⟨link.2.2, mem_map_of_mem link.2.1⟩)⟩

end

theorem exists_commit_of_met {id : CommitId} {range : Option CommitId}
    (met : (CommitDag.fromCommits commits).Met metric id range) : ∃ commit ∈ commits, commit.head = id := by
  rcases met_cases met with ⟨isTip, -⟩ | ⟨child, before, -, isParent, -⟩
  · have isNode := (mem_tips.mp isTip).1
    rw [nodes_fromCommits] at isNode
    exact mem_map.mp isNode
  · obtain ⟨_, _, _, present, _⟩ := mem_edges_fromCommits.mp (mem_parents.mp isParent)
    exact mem_map.mp present

theorem openHead_iff {fragments : List Fragment} : OpenHead fragments metric commit ↔
    0 < metric commit.head ∧ ¬ CommitDag.Covered fragments (some commit.head) := by
  unfold OpenHead CommitDag.Covered
  simp only [Fragment.covers_iff, not_exists, not_and, not_or]

theorem mem_simplify_fromCommits (distinct : (commits.map LooseCommit.head).Nodup)
    (acyclic : AcyclicCommits commits) (fragments : List Fragment) (metric : DepthMetric) (id : CommitId) :
    id ∈ (CommitDag.fromCommits commits).simplify fragments metric ↔
      ∃ commit ∈ commits, commit.head = id ∧ Returned commits fragments metric commit := by
  have closed : ∀ edge ∈ (CommitDag.fromCommits commits).edges,
      edge.1 ∈ (CommitDag.fromCommits commits).nodes := by
    intro edge isEdge
    obtain ⟨_, _, _, present, _⟩ := mem_edges_fromCommits.mp isEdge
    rwa [nodes_fromCommits]
  rw [mem_simplify closed]
  constructor
  · rintro ⟨range, met, uncovered⟩
    obtain ⟨commit, member, rfl⟩ := exists_commit_of_met met
    refine ⟨commit, member, rfl, ?_⟩
    cases range with
    | none =>
      obtain ⟨tip, isTip, flat, path⟩ := met_none_iff.mp met
      have metTip : (CommitDag.fromCommits commits).Met metric tip _ := met_tip isTip
      obtain ⟨last, isLast, rfl⟩ := exists_commit_of_met metTip
      exact ⟨last, descends_of_flat distinct member isLast path,
        Or.inl ⟨flat, (mem_tips_fromCommits isLast).mp isTip⟩⟩
    | some head =>
      obtain ⟨positive, ⟨range, metHead⟩, path⟩ := met_some_iff.mp met
      obtain ⟨last, isLast, rfl⟩ := exists_commit_of_met metHead
      exact ⟨last, descends_of_flat distinct member isLast path,
        Or.inr (openHead_iff.mpr ⟨positive, uncovered⟩)⟩
  · rintro ⟨commit, member, rfl, last, path, ends⟩
    obtain ⟨isLast, flat⟩ := flat_of_descends distinct member path
    rcases ends with ⟨isFlat, childless⟩ | openHead
    · refine ⟨none, met_none_iff.mpr ⟨last.head, ?_, isFlat, flat⟩, fun covered => covered⟩
      exact (mem_tips_fromCommits isLast).mpr childless
    · obtain ⟨positive, uncovered⟩ := openHead_iff.mp openHead
      exact ⟨some last.head, met_some_iff.mpr
        ⟨positive, exists_met_fromCommits distinct acyclic metric isLast, flat⟩, uncovered⟩

/-- **A simplification returns the commits that the paths say**, of every acyclic set of commits, whatever
parents are missing, and in whatever order the commits are given. -/
theorem mem_simplify_iff_returned (commits : List LooseCommit) (distinct : (commits.map LooseCommit.head).Nodup)
    (acyclic : AcyclicCommits commits) (fragments : List Fragment) (metric : DepthMetric) :
    (∀ id, id ∈ (IndexedDag.fromCommits commits).simplify fragments metric ↔
      ∃ commit ∈ commits, commit.head = id ∧ Returned commits fragments metric commit) ∧
    ∀ other : List LooseCommit, other.Perm commits →
      (IndexedDag.fromCommits other).simplify fragments metric =
        (IndexedDag.fromCommits commits).simplify fragments metric := by
  have spec (list : List LooseCommit) (perm : list.Perm commits) (id : CommitId) :
      id ∈ (IndexedDag.fromCommits list).simplify fragments metric ↔
        ∃ commit ∈ list, commit.head = id ∧ Returned list fragments metric commit := by
    have distinctList : (list.map LooseCommit.head).Nodup := (perm.map _).nodup_iff.mpr distinct
    have acyclicList : AcyclicCommits list := by
      unfold AcyclicCommits
      simp only [perm.mem_iff]
      exact acyclic
    rw [IndexedDag.simplify_eq distinctList]
    exact mem_simplify_fromCommits distinctList acyclicList fragments metric id
  refine ⟨spec commits (.refl commits), fun other perm => ?_⟩
  have same : Returned other fragments metric = Returned commits fragments metric := by
    have steps : Descends other metric = Descends commits metric := by
      funext commit child
      simp only [Descends, perm.mem_iff]
    funext commit
    simp only [Returned, FlatTip, steps, perm.mem_iff]
  ext id
  rw [spec other perm, spec commits (.refl commits), same]
  simp only [perm.mem_iff]

end Commits

/-! ### A chain with a missing parent -/

theorem acyclicCommits_of_descending {commits : List LooseCommit}
    (descending : ∀ child ∈ commits, ∀ parent ∈ child.parents, parent < child.head) :
    AcyclicCommits commits := by
  intro commit cycle
  have less : ∀ {first last : LooseCommit}, TransGen (fun child parent : LooseCommit =>
      child ∈ commits ∧ parent ∈ commits ∧ parent.head ∈ child.parents) first last →
      last.head < first.head := by
    intro first last path
    induction path with
    | single link => exact descending _ link.1 _ link.2.2
    | tail _ link ih => exact (descending _ link.1 _ link.2.2).trans ih
  exact lt_irrefl _ (less cycle)

def chainCommits : List LooseCommit :=
  [cycleCommit 3 {.numbered 2}, cycleCommit 1 ∅, cycleCommit 2 {.numbered 0, .numbered 1}]

theorem chain_returned : letI : IterOrder CommitId := IterOrder.ascending CommitId
    (IndexedDag.fromCommits chainCommits).simplify [] chainMetric =
        {.numbered 1, .numbered 2, .numbered 3} ∧
      ∃ commit ∈ chainCommits, commit.head = .numbered 1 ∧ Returned chainCommits [] chainMetric commit := by
  let _ : IterOrder CommitId := IterOrder.ascending CommitId
  have result : (IndexedDag.fromCommits chainCommits).simplify [] chainMetric =
      {.numbered 1, .numbered 2, .numbered 3} := by decide +kernel
  refine ⟨result, ((mem_simplify_iff_returned chainCommits (by decide +kernel)
    (acyclicCommits_of_descending (by decide +kernel)) [] chainMetric).1 (.numbered 1)).mp ?_⟩
  rw [result]
  exact Finset.mem_insert_self _ _

end Subduction
