/-
**Minimizing a minimal tree, and a tree without fragments.**

Minimization is run again on what it left, where fewer commits lead to the ranges. In a tree without
cycles the commits of a range that is not covered stay together with the head of the range, so that they
are met in it again. A cycle of commits that no other commit leads to has no tip: its commits are never
met, and they are dropped although nothing has their payload.

* **`Met.minimized`** — what stays is met in the same range of the minimal tree.
* **`minimize_exact`**, **`minimize_eq_self_iff`**.
-/

import Subduction.Core.Minimize

set_option linter.unusedSectionVars false

namespace Subduction.Sedimentree

open Relation CommitDag

variable [IterOrder CommitId] {tree : Sedimentree} {metric : DepthMetric}

/-! ### The minimal tree -/

theorem commitKeys_minimizeInPlace_subset (tree : Sedimentree) (metric : DepthMetric) :
    (tree.minimizeInPlace metric).commitKeys ⊆ tree.commitKeys := by
  intro id member
  obtain ⟨commit, stored⟩ := mem_commitKeys.mp member
  exact mem_commitKeys.mpr ⟨commit, (commit?_minimizeInPlace.mp stored).1⟩

theorem Link.of_minimizeInPlace {a b : CommitId} (link : (tree.minimizeInPlace metric).Link a b) :
    tree.Link a b := by
  obtain ⟨commit, stored, isParent, present⟩ := link
  exact ⟨commit, (commit?_minimizeInPlace.mp stored).1, isParent,
    commitKeys_minimizeInPlace_subset tree metric present⟩

theorem Link.minimizeInPlace {a b : CommitId} (link : tree.Link a b)
    (child : a ∈ (tree.minimizeInPlace metric).commitKeys)
    (parent : b ∈ (tree.minimizeInPlace metric).commitKeys) : (tree.minimizeInPlace metric).Link a b := by
  obtain ⟨commit, stored, isParent, -⟩ := link
  obtain ⟨other, kept⟩ := mem_commitKeys.mp child
  obtain rfl := Option.some.inj (stored.symm.trans (commit?_minimizeInPlace.mp kept).1)
  exact ⟨commit, kept, isParent, parent⟩

theorem Tip.minimizeInPlace {a : CommitId} (isTip : tree.Tip a)
    (stays : a ∈ (tree.minimizeInPlace metric).commitKeys) : (tree.minimizeInPlace metric).Tip a :=
  ⟨stays, fun child link => isTip.2 child link.of_minimizeInPlace⟩

theorem acyclic_of_descending
    (descending : ∀ commit ∈ tree.commits.map.values, ∀ parent ∈ commit.parents, parent < commit.head)
    (a : CommitId) : ¬ TransGen tree.Link a a := by
  have below : ∀ {x y}, TransGen tree.Link x y → y < x := by
    intro x y path
    have each : ∀ x y, tree.Link x y → y < x := by
      rintro x y ⟨commit, stored, isParent, -⟩
      have isHead := head_of_commit? stored
      rw [← isHead]
      exact descending commit (mem_commits_values.mpr (isHead.symm ▸ stored)) y isParent
    induction path with
    | single link => exact each _ _ link
    | tail _ link ih => exact (each _ _ link).trans ih
  exact fun cycle => lt_irrefl a (below cycle)

theorem acyclic_minimizeInPlace (acyclic : ∀ a, ¬ TransGen tree.Link a a) (a : CommitId) :
    ¬ TransGen (tree.minimizeInPlace metric).Link a a :=
  fun cycle => acyclic a (TransGen.mono (fun _ _ link => link.of_minimizeInPlace) _ _ cycle)

theorem Met.own_range {a : CommitId} {range : Option CommitId} (met : tree.Met metric a range)
    (positive : 0 < metric a) : tree.Met metric a (some a) := by
  cases met with
  | tip isTip =>
    have atTip : tree.Met metric a (CommitDag.rangeAt metric a none) := .tip isTip
    rwa [rangeAt_of_positive positive] at atTip
  | step met link =>
    have atParent := Met.step met link
    rwa [rangeAt_of_positive positive] at atParent

theorem Met.minimized (acyclic : ∀ a, ¬ TransGen tree.Link a a) {a : CommitId} {range : Option CommitId}
    (met : tree.Met metric a range) (uncovered : ¬ (tree.minimizeInPlace metric).RangeCovered range) :
    (tree.minimizeInPlace metric).Met metric a range := by
  induction met with
  | tip isTip =>
    exact .tip (isTip.minimizeInPlace (mem_minimize_commits.mpr ⟨_, .tip isTip, uncovered⟩))
  | @step a b range met link ih =>
    have stays : b ∈ (tree.minimizeInPlace metric).commitKeys :=
      mem_minimize_commits.mpr ⟨_, .step met link, uncovered⟩
    by_cases positive : 0 < metric b
    · -- the range begins here, so it does not matter how the commit is reached
      obtain ⟨other, again⟩ := exists_met metric (acyclic_minimizeInPlace acyclic) stays
      rw [rangeAt_of_positive positive]
      exact again.own_range positive
    · rw [rangeAt_of_flat positive] at uncovered
      have above := mem_minimize_commits.mpr ⟨range, met, uncovered⟩
      exact .step (ih uncovered) (link.minimizeInPlace above stays)

/-! ### Minimizing again -/

theorem fragment?_minimizeInPlace_twice (id : CommitId) :
    ((tree.minimizeInPlace metric).minimizeInPlace metric).fragment? id =
      (tree.minimizeInPlace metric).fragment? id := by
  refine Option.ext fun fragment => ⟨fun found => (fragment?_minimizeInPlace.mp found).1, fun stored => ?_⟩
  refine (mem_fragmentKeys_minimizeInPlace stored).mp ?_
  refine ((tree.minimizeInPlace metric).minimize_kernel metric id).mpr
    ⟨mem_fragmentKeys.mpr ⟨fragment, stored⟩, fun deeper stays above supports => ?_⟩
  have first := (tree.minimize_kernel metric id).mp (mem_fragmentKeys.mpr ⟨fragment, stored⟩)
  refine first.2 deeper (fragmentKeys_minimizeInPlace_subset _ metric stays) above ?_
  obtain ⟨high, low, storedHigh, storedLow, supports⟩ := supports
  exact ⟨high, low, (fragment?_minimizeInPlace.mp storedHigh).1,
    (fragment?_minimizeInPlace.mp storedLow).1, supports⟩

theorem rangeCovered_minimizeInPlace_twice {range : Option CommitId} :
    ((tree.minimizeInPlace metric).minimizeInPlace metric).RangeCovered range ↔
      (tree.minimizeInPlace metric).RangeCovered range := by
  cases range with
  | none => exact iff_of_false id id
  | some head =>
    unfold RangeCovered Covers
    simp only [fragment?_minimizeInPlace_twice]

theorem minimizeInPlace_twice (acyclic : ∀ a, ¬ TransGen tree.Link a a) :
    (tree.minimizeInPlace metric).minimizeInPlace metric = tree.minimizeInPlace metric := by
  refine Sedimentree.ext fragment?_minimizeInPlace_twice fun id => Option.ext fun commit => ?_
  refine ⟨fun found => (commit?_minimizeInPlace.mp found).1, fun stored => ?_⟩
  obtain ⟨range, met, uncovered⟩ := mem_minimize_commits.mp (mem_commitKeys.mpr ⟨commit, stored⟩)
  refine commit?_minimizeInPlace.mpr ⟨stored, mem_keepSets_commitHeads.mpr ⟨range, ?_, ?_⟩⟩
  · exact met.minimized acyclic uncovered
  · rwa [rangeCovered_minimizeInPlace_twice]

section Rebuilt

variable [Blake3] [Bijou64]

/-- **Minimization is exact.** The fragments that stay are those that no strictly deeper fragment that
stays supports; minimizing again changes nothing, and minimizing in place leaves the same tree. -/
theorem minimize_exact (tree : Sedimentree) (metric : DepthMetric)
    (acyclic : ∀ a, ¬ TransGen tree.Link a a) :
    (∀ id fragment, (tree.minimize metric).fragment? id = some fragment ↔
      tree.fragment? id = some fragment ∧ ∀ other deeper,
        (tree.minimize metric).fragment? other = some deeper →
          fragment.depth metric < deeper.depth metric → deeper.supports fragment.summary metric = false) ∧
    (tree.minimize metric).minimize metric = tree.minimize metric ∧
    tree.minimizeInPlace metric = tree.minimize metric := by
  simp only [minimize_eq_minimizeInPlace]
  refine ⟨fun id fragment => ?_, minimizeInPlace_twice acyclic, trivial⟩
  rw [fragment?_minimizeInPlace]
  refine and_congr_right fun stored => ?_
  have underHead : tree.fragment? fragment.head = some fragment := (head_of_fragment? stored).symm ▸ stored
  refine (minimizedFragments_kernel tree metric fragment).trans ((and_iff_right underHead).trans ?_)
  constructor
  · intro clear other deeper kept above
    exact Bool.eq_false_iff.mpr (clear deeper (fragment?_minimizeInPlace.mp kept).2 above)
  · intro clear deeper stays above supports
    have storedDeeper := (minimizedFragments_kernel tree metric).item stays
    have unsupported := clear deeper.head deeper (fragment?_minimizeInPlace.mpr ⟨storedDeeper, stays⟩) above
    exact Bool.false_ne_true (unsupported.symm.trans supports)

/-! ### Without fragments -/

theorem not_rangeCovered_of_no_fragments (bare : tree.fragmentKeys = ∅) (range : Option CommitId) :
    ¬ (tree.minimizeInPlace metric).RangeCovered range := by
  cases range with
  | none => exact fun covered => covered
  | some head =>
    rintro ⟨id, fragment, stored, -⟩
    have member := mem_fragmentKeys.mpr ⟨fragment, (fragment?_minimizeInPlace.mp stored).1⟩
    rw [bare] at member
    exact absurd member (Finset.notMem_empty id)

/-- **A tree without fragments is kept as it is** exactly when each of its commits is a tip or an ancestor
of one. -/
theorem minimize_eq_self_iff (tree : Sedimentree) (metric : DepthMetric) (bare : tree.fragmentKeys = ∅) :
    tree.minimize metric = tree ↔ ∀ id ∈ tree.commitKeys, tree.Rooted id := by
  rw [minimize_eq_minimizeInPlace]
  have kept : ∀ id, id ∈ (tree.minimizeInPlace metric).commitKeys ↔ tree.Rooted id := by
    intro id
    rw [mem_minimize_commits]
    constructor
    · rintro ⟨range, met, -⟩
      exact met.rooted
    · intro rooted
      obtain ⟨range, met⟩ := rooted.exists_met metric
      exact ⟨range, met, not_rangeCovered_of_no_fragments bare range⟩
  constructor
  · intro same id member
    rw [← same] at member
    exact (kept id).mp member
  · intro rooted
    refine Sedimentree.ext (fun id => ?_) fun id => Option.ext fun commit => ?_
    · have absent : tree.fragments.map.get? id = none := by
        refine FinMap.get?_eq_none.mpr fun member => ?_
        exact absurd (bare ▸ member : id ∈ (∅ : Finset CommitId)) (Finset.notMem_empty id)
      rw [absent, Option.eq_none_iff_forall_ne_some]
      intro fragment found
      have stored := (fragment?_minimizeInPlace.mp found).1
      exact absurd (absent.symm.trans stored) (by simp)
    · refine ⟨fun found => (commit?_minimizeInPlace.mp found).1, fun stored => ?_⟩
      have stays := (kept id).mpr (rooted id (mem_commitKeys.mpr ⟨commit, stored⟩))
      obtain ⟨other, found⟩ := mem_commitKeys.mp stays
      obtain rfl := Option.some.inj (stored.symm.trans (commit?_minimizeInPlace.mp found).1)
      exact found

end Rebuilt

end Subduction.Sedimentree

namespace Subduction

def cycleCommit (number : Nat) (parents : Finset CommitId) : LooseCommit :=
  ⟨⟨0⟩, .numbered number, parents, ⟨⟨0⟩, 0⟩⟩

/-- Three commits in a row, and the fragment of the second one. -/
def chainTree [Blake3] [Bijou64] : Sedimentree :=
  .new [Fragment.new ⟨0⟩ (.numbered 2) ∅ ∅ ⟨⟨0⟩, 0⟩]
    [cycleCommit 1 ∅, cycleCommit 2 {.numbered 1}, cycleCommit 3 {.numbered 2}]

def bareChainTree [Blake3] [Bijou64] : Sedimentree :=
  .new [] [cycleCommit 1 ∅, cycleCommit 2 {.numbered 1}, cycleCommit 3 {.numbered 2}]

def chainMetric : DepthMetric := fun id => if id = .numbered 2 then 1 else 0

theorem descending_chains : letI : IterOrder CommitId := IterOrder.ascending CommitId
    letI : Blake3 := ⟨fun _ => 0⟩
    letI : Bijou64 := ⟨fun _ => []⟩
    ∀ tree ∈ [chainTree, bareChainTree], ∀ commit ∈ tree.commits.map.values,
      ∀ parent ∈ commit.parents, parent < commit.head := by
  decide +kernel

theorem minimize_exact_chain : letI : IterOrder CommitId := IterOrder.ascending CommitId
    letI : Blake3 := ⟨fun _ => 0⟩
    letI : Bijou64 := ⟨fun _ => []⟩
    (chainTree.minimize chainMetric).commitKeys = {.numbered 3} ∧
      (chainTree.minimize chainMetric).fragmentKeys = {.numbered 2} ∧
      (chainTree.minimize chainMetric).minimize chainMetric = chainTree.minimize chainMetric := by
  let _ : IterOrder CommitId := IterOrder.ascending CommitId
  let _ : Blake3 := ⟨fun _ => 0⟩
  let _ : Bijou64 := ⟨fun _ => []⟩
  refine ⟨by decide +kernel, by decide +kernel, (Sedimentree.minimize_exact chainTree chainMetric ?_).2.1⟩
  exact Sedimentree.acyclic_of_descending (descending_chains _ (by simp))

theorem bare_chain_kept : letI : IterOrder CommitId := IterOrder.ascending CommitId
    letI : Blake3 := ⟨fun _ => 0⟩
    letI : Bijou64 := ⟨fun _ => []⟩
    bareChainTree.fragmentKeys = ∅ ∧ bareChainTree.minimize chainMetric = bareChainTree := by
  let _ : IterOrder CommitId := IterOrder.ascending CommitId
  let _ : Blake3 := ⟨fun _ => 0⟩
  let _ : Bijou64 := ⟨fun _ => []⟩
  refine ⟨by decide +kernel, ?_⟩
  refine (Sedimentree.minimize_eq_self_iff bareChainTree chainMetric (by decide +kernel)).mpr ?_
  intro id member
  obtain ⟨range, met⟩ := Sedimentree.exists_met chainMetric
    (Sedimentree.acyclic_of_descending (descending_chains _ (by simp))) member
  exact met.rooted

/-- **A cycle that no other commit leads to is dropped**: a commit that is its own parent, and two that
are each other's. -/
theorem cycle_dropped : letI : IterOrder CommitId := IterOrder.ascending CommitId
    letI : Blake3 := ⟨fun _ => 0⟩
    letI : Bijou64 := ⟨fun _ => []⟩
    let tree := Sedimentree.new []
      [cycleCommit 1 {.numbered 1}, cycleCommit 2 {.numbered 3, .numbered 4}, cycleCommit 3 {.numbered 2},
        cycleCommit 4 ∅, cycleCommit 5 {.numbered 4}]
    tree.fragmentKeys = ∅ ∧ tree.commitKeys.card = 5 ∧
      (tree.minimize fun _ => 0).commitKeys = {.numbered 4, .numbered 5} := by
  decide +kernel

end Subduction
