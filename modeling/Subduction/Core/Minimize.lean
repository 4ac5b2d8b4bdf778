/-
**What minimization keeps.**

* **`minimize_eq_minimizeInPlace`** — rebuilding the minimal tree and minimizing in place agree.
* **`minimize_kernel`** — the fragments that stay are the kernel of the support relation, ranked by
  depth: a fragment stays exactly when no fragment that stays and is strictly deeper supports it.
* **`mem_minimize_commits`** — a loose commit stays exactly when it is met in a range whose head no
  fragment that stays covers, or in no range.
* **`minimizeInPlace_congr_iff`** — two trees minimize alike under every metric exactly when they have
  the same fragments and the same loose commits hang from their tips.
-/

import Subduction.Core.Sedimentree
import Subduction.Lib.Strata

set_option linter.unusedSectionVars false

namespace Subduction.Sedimentree

open Relation CommitDag Sedimentree Finset

variable [IterOrder CommitId]

variable {tree : Sedimentree} {metric : DepthMetric}

/-! ### The fragments that stay -/

theorem minimizedFragments_kernel (tree : Sedimentree) (metric : DepthMetric) :
    Kernel (fun fragment : Fragment => fragment.depth metric)
      (fun deeper fragment => deeper.supports fragment.summary metric = true)
      (fun fragment => tree.fragment? fragment.head = some fragment)
      (· ∈ tree.minimizedFragments metric) := by
  intro fragment
  refine (sweep_kernel _ _ _ fragment).trans (and_congr_left fun _ => ?_)
  exact (List.perm_insertionSort _ _).mem_iff.trans mem_fragments_values

variable {id a : CommitId} {range : Option CommitId}

theorem mem_keepSets_fragmentHeads {fragment : Fragment}
    (stored : tree.fragment? id = some fragment) :
    id ∈ (tree.keepSets metric).fragmentHeads ↔ fragment ∈ tree.minimizedFragments metric := by
  unfold keepSets
  rw [List.mem_toFinset, List.mem_map]
  refine ⟨fun ⟨other, stays, isHead⟩ => ?_, fun stays => ⟨fragment, stays, head_of_fragment? stored⟩⟩
  have storedOther := (minimizedFragments_kernel tree metric).item stays
  rw [isHead, stored] at storedOther
  rw [Option.some.inj storedOther]
  exact stays

theorem fragment?_minimizeInPlace {fragment : Fragment} :
    (tree.minimizeInPlace metric).fragment? id = some fragment ↔
      tree.fragment? id = some fragment ∧ fragment ∈ tree.minimizedFragments metric := by
  unfold minimizeInPlace fragment?
  rw [Shelf.get?_retain, decide_eq_true_eq]
  exact and_congr_right fun stored => mem_keepSets_fragmentHeads stored

theorem mem_fragmentKeys_minimizeInPlace {fragment : Fragment}
    (stored : tree.fragment? id = some fragment) :
    id ∈ (tree.minimizeInPlace metric).fragmentKeys ↔
      (tree.minimizeInPlace metric).fragment? id = some fragment := by
  rw [mem_fragmentKeys]
  refine ⟨fun ⟨other, found⟩ => ?_, fun found => ⟨fragment, found⟩⟩
  rw [Option.some.inj (stored.symm.trans (fragment?_minimizeInPlace.mp found).1)]
  exact found

theorem commit?_minimizeInPlace {commit : LooseCommit} :
    (tree.minimizeInPlace metric).commit? id = some commit ↔
      tree.commit? id = some commit ∧ id ∈ (tree.keepSets metric).commitHeads := by
  unfold minimizeInPlace commit?
  rw [Shelf.get?_retain, decide_eq_true_eq]

@[simp] theorem minimizeInPlace_empty (metric : DepthMetric) :
    (∅ : Sedimentree).minimizeInPlace metric = ∅ := by
  refine congrArg₂ Sedimentree.mk (Shelf.ext fun id => Option.ext fun fragment => ?_)
    (Shelf.ext fun id => Option.ext fun commit => ?_)
  · refine ⟨fun found => (fragment?_minimizeInPlace.mp found).1, fun found => ?_⟩
    have stored : (∅ : Sedimentree).fragment? id = some fragment := found
    simp at stored
  · refine ⟨fun found => (commit?_minimizeInPlace.mp found).1, fun found => ?_⟩
    have stored : (∅ : Sedimentree).commit? id = some commit := found
    simp at stored

theorem minimize_eq_minimizeInPlace [Blake3] [Bijou64] (tree : Sedimentree) (metric : DepthMetric) :
    tree.minimize metric = tree.minimizeInPlace metric :=
  congrArg₂ Sedimentree.mk (tree.fragments.ofList_filter_values _)
    (tree.commits.ofList_filter_values _)

section

variable (tree : Sedimentree)

/-- A fragment supports another fragment of the tree, both given by their heads. -/
def Supports (metric : DepthMetric) (g a : CommitId) : Prop :=
  ∃ deeper fragment, tree.fragment? g = some deeper ∧ tree.fragment? a = some fragment ∧
    deeper.supports fragment.summary metric = true

theorem minimize_kernel (metric : DepthMetric) :
    Kernel metric (tree.Supports metric) (· ∈ tree.fragmentKeys)
      (· ∈ (tree.minimizeInPlace metric).fragmentKeys) := by
  have kept : ∀ {id fragment}, tree.fragment? id = some fragment →
      (id ∈ (tree.minimizeInPlace metric).fragmentKeys ↔
        fragment ∈ tree.minimizedFragments metric) := fun stored =>
    (mem_fragmentKeys_minimizeInPlace stored).trans
      (fragment?_minimizeInPlace.trans (and_iff_right stored))
  intro id
  refine ⟨fun stays => ?_, fun ⟨member, clear⟩ => ?_⟩
  · obtain ⟨fragment, found⟩ := mem_fragmentKeys.mp stays
    obtain ⟨stored, stays⟩ := fragment?_minimizeInPlace.mp found
    refine ⟨mem_fragmentKeys.mpr ⟨fragment, stored⟩, fun g staysG above supports => ?_⟩
    obtain ⟨deeper, other, storedG, storedOther, supports⟩ := supports
    obtain rfl := Option.some.inj (stored.symm.trans storedOther)
    refine ((minimizedFragments_kernel tree metric fragment).mp stays).2 deeper
      ((kept storedG).mp staysG) ?_ supports
    show metric fragment.head < metric deeper.head
    rwa [head_of_fragment? stored, head_of_fragment? storedG]
  · obtain ⟨fragment, stored⟩ := mem_fragmentKeys.mp member
    have underHead : tree.fragment? fragment.head = some fragment :=
      (head_of_fragment? stored).symm ▸ stored
    refine (kept stored).mpr ((minimizedFragments_kernel tree metric fragment).mpr
      ⟨underHead, fun deeper stays above supports => ?_⟩)
    have storedG := (minimizedFragments_kernel tree metric).item stays
    change metric fragment.head < metric deeper.head at above
    rw [head_of_fragment? stored] at above
    exact clear deeper.head ((kept storedG).mpr stays) above
      ⟨deeper, fragment, storedG, stored, supports⟩

theorem fragmentKeys_minimizeInPlace_subset (metric : DepthMetric) :
    (tree.minimizeInPlace metric).fragmentKeys ⊆ tree.fragmentKeys :=
  fun _ stays => (tree.minimize_kernel metric).item stays

/-! ### The loose commits that stay -/

/-- From a loose commit to a parent that is a loose commit of the tree. -/
def Link (a b : CommitId) : Prop :=
  ∃ commit, tree.commit? a = some commit ∧ b ∈ commit.parents ∧ b ∈ tree.commitKeys

/-- The loose commits that no other one has as a parent. -/
def Tip (a : CommitId) : Prop :=
  a ∈ tree.commitKeys ∧ ∀ child, ¬ tree.Link child a

/-- A fragment of the tree has the payload of `id`, by head or checkpoint. -/
def Covers (id : CommitId) : Prop :=
  ∃ head fragment, tree.fragment? head = some fragment ∧ fragment.covers id = true

/-- A range is covered when its head is; what is in no range is not covered. -/
def RangeCovered : Option CommitId → Prop
  | none => False
  | some head => tree.Covers head

end

theorem mem_dag_edges {b : CommitId} : (b, a) ∈ tree.dag.edges ↔ tree.Link a b := by
  unfold dag
  rw [mem_edges_fromCommits]
  refine ⟨fun ⟨commit, member, isParent, present, isHead⟩ => ?_, fun ⟨commit, stored, isParent, present⟩ => ?_⟩
  · change a = commit.head at isHead
    rw [isHead]
    exact ⟨commit, mem_commits_values.mp member, isParent, mem_commit_heads.mp present⟩
  · have isHead := head_of_commit? stored
    exact ⟨commit, mem_commits_values.mpr (isHead.symm ▸ stored), isParent,
      mem_commit_heads.mpr present, isHead.symm⟩

theorem dag_closed (tree : Sedimentree) : ∀ edge ∈ tree.dag.edges, edge.1 ∈ tree.dag.nodes := by
  intro edge member
  obtain ⟨_, _, _, present, _⟩ := mem_edges_fromCommits.mp member
  unfold dag
  rw [nodes_fromCommits]
  exact present

theorem mem_dag_tips : a ∈ tree.dag.tips ↔ tree.Tip a := by
  rw [mem_tips]
  unfold Tip
  refine and_congr ?_ (forall_congr' fun child => not_congr mem_dag_edges)
  unfold dag
  rw [nodes_fromCommits, mem_commit_heads]

/-- **The loose commit is met in the range** on a path from a tip. -/
inductive Met (tree : Sedimentree) (metric : DepthMetric) : CommitId → Option CommitId → Prop
  | tip {a : CommitId} : tree.Tip a → Met tree metric a (CommitDag.rangeAt metric a none)
  | step {a b : CommitId} {range : Option CommitId} : Met tree metric a range → tree.Link a b →
      Met tree metric b (CommitDag.rangeAt metric b range)

theorem dag_met_iff : tree.dag.Met metric a range ↔ tree.Met metric a range := by
  refine ⟨fun ⟨⟨root, start⟩, ⟨isTip, atRoot⟩, path⟩ => ?_, fun met => ?_⟩
  · change start = CommitDag.rangeAt metric root none at atRoot
    subst atRoot
    have general : ∀ p, ReflTransGen (tree.dag.RangeEdge metric)
        (root, CommitDag.rangeAt metric root none) p → tree.Met metric p.1 p.2 := by
      intro p path
      induction path with
      | refl => exact .tip (mem_dag_tips.mp isTip)
      | @tail p q _ step ih =>
        obtain ⟨isParent, atParent⟩ := step
        rw [atParent]
        exact .step ih (mem_dag_edges.mp (mem_parents.mp isParent))
    exact general (a, range) path
  · induction met with
    | tip isTip => exact ⟨_, ⟨mem_dag_tips.mpr isTip, rfl⟩, .refl⟩
    | step _ link ih =>
      obtain ⟨root, isRoot, path⟩ := ih
      exact ⟨root, isRoot, path.tail ⟨mem_parents.mpr (mem_dag_edges.mpr link), rfl⟩⟩

theorem Met.mem_commitKeys (met : tree.Met metric a range) : a ∈ tree.commitKeys := by
  cases met with
  | tip isTip => exact isTip.1
  | step _ link => exact link.choose_spec.2.2

theorem covered_minimizedFragments : CommitDag.Covered (tree.minimizedFragments metric) range ↔
      (tree.minimizeInPlace metric).RangeCovered range := by
  cases range with
  | none => exact Iff.rfl
  | some head =>
    refine ⟨fun ⟨fragment, stays, covers⟩ => ?_, fun ⟨id, fragment, stored, covers⟩ => ?_⟩
    · have stored := (minimizedFragments_kernel tree metric).item stays
      exact ⟨fragment.head, fragment, fragment?_minimizeInPlace.mpr ⟨stored, stays⟩, covers⟩
    · exact ⟨fragment, (fragment?_minimizeInPlace.mp stored).2, covers⟩

/-- **The loose commits that stay**: those met in a range that no fragment that stays covers. -/
theorem mem_keepSets_commitHeads : a ∈ (tree.keepSets metric).commitHeads ↔
      ∃ range, tree.Met metric a range ∧ ¬ (tree.minimizeInPlace metric).RangeCovered range := by
  unfold keepSets
  rw [mem_simplify tree.dag_closed]
  refine exists_congr fun range => and_congr dag_met_iff (not_congr covered_minimizedFragments)

theorem mem_minimize_commits : a ∈ (tree.minimizeInPlace metric).commitKeys ↔
      ∃ range, tree.Met metric a range ∧ ¬ (tree.minimizeInPlace metric).RangeCovered range := by
  rw [← mem_keepSets_commitHeads, mem_commitKeys]
  refine ⟨fun ⟨commit, stored⟩ => (commit?_minimizeInPlace.mp stored).2, fun stays => ?_⟩
  obtain ⟨range, met, -⟩ := mem_keepSets_commitHeads.mp stays
  obtain ⟨commit, stored⟩ := mem_commitKeys.mp met.mem_commitKeys
  exact ⟨commit, commit?_minimizeInPlace.mpr ⟨stored, stays⟩⟩

theorem Met.range_path {head : CommitId} (met : tree.Met metric a (some head)) :
    0 < metric head ∧ ReflTransGen (fun x y => tree.Link x y ∧ metric y = 0) head a := by
  generalize isRange : some head = range at met
  induction met with
  | @tip b _ =>
    by_cases positive : 0 < metric b
    · rw [rangeAt_of_positive positive] at isRange
      rw [Option.some.inj isRange]
      exact ⟨positive, .refl⟩
    · rw [rangeAt_of_flat positive] at isRange
      exact absurd isRange (by simp)
  | @step b c range _ link ih =>
    by_cases positive : 0 < metric c
    · rw [rangeAt_of_positive positive] at isRange
      rw [Option.some.inj isRange]
      exact ⟨positive, .refl⟩
    · rw [rangeAt_of_flat positive] at isRange
      obtain ⟨positiveHead, path⟩ := ih isRange
      exact ⟨positiveHead, path.tail ⟨link, Nat.eq_zero_of_not_pos positive⟩⟩

theorem exists_met (metric : DepthMetric) (acyclic : ∀ a, ¬ TransGen tree.Link a a)
    (member : a ∈ tree.commitKeys) : ∃ range, tree.Met metric a range := by
  obtain ⟨top, isNode, path, source⟩ := Strata.exists_source tree.commitKeys
    (fun x _ link => mem_commitKeys.mpr ⟨_, link.choose_spec.1⟩) acyclic member
  induction path with
  | refl => exact ⟨_, .tip ⟨isNode, source⟩⟩
  | tail _ link ih =>
    obtain ⟨range, met⟩ := ih (mem_commitKeys.mpr ⟨_, link.choose_spec.1⟩)
    exact ⟨_, .step met link⟩

/-- **A loose commit that is dropped** is in a range whose head a fragment that stays covers. -/
theorem exists_covered_range (acyclic : ∀ a, ¬ TransGen tree.Link a a)
    (member : a ∈ tree.commitKeys) (dropped : a ∉ (tree.minimizeInPlace metric).commitKeys) :
    ∃ head, (tree.minimizeInPlace metric).Covers head ∧ 0 < metric head ∧
      ReflTransGen (fun x y => tree.Link x y ∧ metric y = 0) head a := by
  obtain ⟨range, met⟩ := exists_met metric acyclic member
  have covered : (tree.minimizeInPlace metric).RangeCovered range := by
    by_contra uncovered
    exact dropped (mem_minimize_commits.mpr ⟨range, met, uncovered⟩)
  cases range with
  | none => exact covered.elim
  | some head => exact ⟨head, covered, met.range_path⟩

/-! ### Trees that minimize alike -/

/-- The loose commit is reached from a tip. -/
inductive Rooted (tree : Sedimentree) : CommitId → Prop
  | tip {a : CommitId} : tree.Tip a → Rooted tree a
  | step {a b : CommitId} : Rooted tree a → tree.Link a b → Rooted tree b

/-- **The loose commit hangs from a tip.** -/
def Hangs (tree : Sedimentree) (id : CommitId) (commit : LooseCommit) : Prop :=
  tree.commit? id = some commit ∧ tree.Rooted id

theorem Met.rooted (met : tree.Met metric a range) : tree.Rooted a := by
  induction met with
  | tip isTip => exact .tip isTip
  | step _ link ih => exact .step ih link

theorem Rooted.exists_met (rooted : tree.Rooted a) (metric : DepthMetric) :
    ∃ range, tree.Met metric a range := by
  induction rooted with
  | tip isTip => exact ⟨_, .tip isTip⟩
  | step _ link ih =>
    obtain ⟨range, met⟩ := ih
    exact ⟨_, .step met link⟩

theorem Rooted.exists_hangs (rooted : tree.Rooted a) : ∃ commit, tree.Hangs a commit := by
  obtain ⟨range, met⟩ := rooted.exists_met fun _ => 0
  obtain ⟨commit, stored⟩ := mem_commitKeys.mp met.mem_commitKeys
  exact ⟨commit, stored, rooted⟩

theorem fragment?_minimizeInPlace_flat (id : CommitId) :
    (tree.minimizeInPlace fun _ => 0).fragment? id = tree.fragment? id := by
  refine Option.ext fun fragment => ⟨fun found => (fragment?_minimizeInPlace.mp found).1, fun stored => ?_⟩
  refine (mem_fragmentKeys_minimizeInPlace stored).mp ((tree.minimize_kernel _ id).mpr ?_)
  exact ⟨mem_fragmentKeys.mpr ⟨fragment, stored⟩, fun _ _ above => absurd above (lt_irrefl 0)⟩

theorem commit?_minimizeInPlace_flat {commit : LooseCommit} :
    (tree.minimizeInPlace fun _ => 0).commit? id = some commit ↔ tree.Hangs id commit := by
  rw [commit?_minimizeInPlace, mem_keepSets_commitHeads]
  refine and_congr_right fun _ => ⟨fun ⟨_, met, _⟩ => met.rooted, fun rooted => ?_⟩
  obtain ⟨range, met⟩ := rooted.exists_met fun _ => 0
  refine ⟨range, met, ?_⟩
  cases range with
  | none => exact fun covered => covered
  | some head => exact absurd met.range_path.1 (lt_irrefl 0)

section Alike

variable {first second : Sedimentree}

section

variable (same : ∀ id commit, first.Hangs id commit ↔ second.Hangs id commit) {a : CommitId}

include same

theorem Tip.of_hangs (isTip : first.Tip a) : second.Tip a := by
  obtain ⟨commit, hangs⟩ := (Rooted.tip isTip).exists_hangs
  cases ((same a commit).mp hangs).2 with
  | tip isTip => exact isTip
  | @step parent _ rooted link =>
    -- the commit that leads to it hangs from a tip too, so it leads to it in the first tree
    obtain ⟨child, stored, isParent, _⟩ := link
    have above := (same parent child).mpr ⟨stored, rooted⟩
    exact absurd ⟨child, above.1, isParent, isTip.1⟩ (isTip.2 parent)

theorem Met.of_hangs
    {range : Option CommitId} (met : first.Met metric a range) : second.Met metric a range := by
  induction met with
  | tip isTip => exact .tip (isTip.of_hangs same)
  | @step a b range met link ih =>
    obtain ⟨child, below⟩ := (Rooted.step met.rooted link).exists_hangs
    obtain ⟨commit, stored, isParent, _⟩ := link
    refine .step ih ⟨commit, ((same a commit).mp ⟨stored, met.rooted⟩).1, isParent, ?_⟩
    exact Sedimentree.mem_commitKeys.mpr ⟨child, ((same b child).mp below).1⟩

end

theorem commit?_of_hangs (fragments : first.fragments = second.fragments)
    (same : ∀ id commit, first.Hangs id commit ↔ second.Hangs id commit) {id : CommitId}
    {commit : LooseCommit} (stays : (first.minimizeInPlace metric).commit? id = some commit) :
    (second.minimizeInPlace metric).commit? id = some commit := by
  have kept : first.minimizedFragments metric = second.minimizedFragments metric := by
    unfold minimizedFragments
    rw [fragments]
  obtain ⟨stored, inKeep⟩ := commit?_minimizeInPlace.mp stays
  obtain ⟨range, met, uncovered⟩ := mem_keepSets_commitHeads.mp inKeep
  refine commit?_minimizeInPlace.mpr ⟨((same id commit).mp ⟨stored, met.rooted⟩).1,
    mem_keepSets_commitHeads.mpr ⟨range, met.of_hangs same, ?_⟩⟩
  rw [← covered_minimizedFragments] at uncovered ⊢
  rwa [← kept]

theorem minimizeInPlace_congr_iff :
    (∀ metric, first.minimizeInPlace metric = second.minimizeInPlace metric) ↔
      first.fragments = second.fragments ∧
        ∀ id commit, first.Hangs id commit ↔ second.Hangs id commit := by
  refine ⟨fun alike => ⟨Shelf.ext fun id => ?_, fun id commit => ?_⟩, fun ⟨fragments, same⟩ metric => ?_⟩
  · show first.fragment? id = second.fragment? id
    rw [← fragment?_minimizeInPlace_flat, alike, fragment?_minimizeInPlace_flat]
  · rw [← commit?_minimizeInPlace_flat, alike, commit?_minimizeInPlace_flat]
  · have kept : first.minimizedFragments metric = second.minimizedFragments metric := by
      unfold minimizedFragments
      rw [fragments]
    refine congrArg₂ Sedimentree.mk (Shelf.ext fun id => Option.ext fun fragment => ?_)
      (Shelf.ext fun id => Option.ext fun commit => ?_)
    · show (first.minimizeInPlace metric).fragment? id = some fragment ↔
        (second.minimizeInPlace metric).fragment? id = some fragment
      rw [fragment?_minimizeInPlace, fragment?_minimizeInPlace, kept, fragment?, fragment?, fragments]
    · exact ⟨commit?_of_hangs fragments same,
        commit?_of_hangs fragments.symm fun id commit => (same id commit).symm⟩

end Alike

/-! ### Heads -/

theorem mem_headsAssumingMinimal :
    id ∈ tree.headsAssumingMinimal ↔ (id ∈ tree.fragmentKeys ∨ id ∈ tree.commitKeys) ∧
      (∀ a commit, tree.commit? a = some commit → id ∉ commit.parents) ∧
      ∀ h fragment, tree.fragment? h = some fragment →
        id ∉ fragment.boundary ∧ Checkpoint.new id ∉ fragment.checkpoints := by
  have parents : (∃ commit ∈ tree.commits.map.values.toFinset, id ∈ commit.parents) ↔
      ∃ a commit, tree.commit? a = some commit ∧ id ∈ commit.parents := by
    simp only [List.mem_toFinset, FinMap.mem_values]
    exact ⟨fun ⟨commit, ⟨a, stored⟩, isParent⟩ => ⟨a, commit, stored, isParent⟩,
      fun ⟨a, commit, stored, isParent⟩ => ⟨commit, ⟨a, stored⟩, isParent⟩⟩
  have fragments : ∀ P : Fragment → Prop, (∃ fragment ∈ tree.fragments.map.values.toFinset,
      P fragment) ↔ ∃ h fragment, tree.fragment? h = some fragment ∧ P fragment := by
    intro P
    simp only [List.mem_toFinset, FinMap.mem_values]
    exact ⟨fun ⟨fragment, ⟨h, stored⟩, holds⟩ => ⟨h, fragment, stored, holds⟩,
      fun ⟨h, fragment, stored, holds⟩ => ⟨fragment, ⟨h, stored⟩, holds⟩⟩
  unfold headsAssumingMinimal referencedIds referencedCheckpoints
  rw [IterOrder.mem_list, mem_filter, mem_union, mem_union, mem_biUnion,
    mem_biUnion, mem_biUnion, parents, fragments, fragments]
  refine and_congr_right fun _ => ⟨fun clear => ⟨fun a commit stored isParent => ?_,
    fun h fragment stored => ⟨fun inside => ?_, fun inside => ?_⟩⟩, fun clear => ⟨fun either => ?_,
    fun ⟨h, fragment, stored, inside⟩ => (clear.2 h fragment stored).2 inside⟩⟩
  · exact clear.1 (Or.inl ⟨a, commit, stored, isParent⟩)
  · exact clear.1 (Or.inr ⟨h, fragment, stored, inside⟩)
  · exact clear.2 ⟨h, fragment, stored, inside⟩
  · rcases either with ⟨a, commit, stored, isParent⟩ | ⟨h, fragment, stored, inside⟩
    · exact clear.1 a commit stored isParent
    · exact (clear.2 h fragment stored).1 inside

end Subduction.Sedimentree
