/-
**Merging is independent of order, grouping and repetition.**

A tree is built by constructing trees from lists, adding commits and fragments one by one, and
merging. `Plan` is the syntax of such a construction; what a plan gives depends only on the items in
it.

Main result: `merge_order_irrelevant`.
-/

import Subduction.Core.Sedimentree

set_option linter.unusedSectionVars false

namespace Subduction

section Merging

variable [IterOrder CommitId] [Blake3] [Bijou64]

/-- **A way to build a tree.** -/
inductive Plan where
  | new (fragments : List Fragment) (commits : List LooseCommit)
  | addCommit (plan : Plan) (commit : LooseCommit)
  | addFragment (plan : Plan) (fragment : Fragment)
  | merge (plan other : Plan)

namespace Plan

def eval : Plan → Sedimentree
  | new fragments commits => Sedimentree.new fragments commits
  | addCommit plan commit => (plan.eval.addCommit commit).1
  | addFragment plan fragment => (plan.eval.addFragment fragment).1
  | merge plan other => plan.eval.merge other.eval

def HasFragment : Plan → Fragment → Prop
  | new fragments _, f => f ∈ fragments
  | addCommit plan _, f => plan.HasFragment f
  | addFragment plan fragment, f => plan.HasFragment f ∨ f = fragment
  | merge plan other, f => plan.HasFragment f ∨ other.HasFragment f

def HasCommit : Plan → LooseCommit → Prop
  | new _ commits, c => c ∈ commits
  | addCommit plan commit, c => plan.HasCommit c ∨ c = commit
  | addFragment plan _, c => plan.HasCommit c
  | merge plan other, c => plan.HasCommit c ∨ other.HasCommit c

theorem holds (plan : Plan) : plan.eval.fragments.Holds plan.HasFragment ∧
    plan.eval.commits.Holds plan.HasCommit := by
  induction plan with
  | new fragments commits => exact ⟨Shelf.holds_ofList fragments, Shelf.holds_ofList commits⟩
  | addCommit plan commit ih =>
    refine ⟨ih.1, ?_⟩
    unfold eval Sedimentree.addCommit
    rw [Shelf.add_fst]
    exact ih.2.insert commit
  | addFragment plan fragment ih =>
    refine ⟨?_, ih.2⟩
    unfold eval Sedimentree.addFragment
    rw [Shelf.add_fst]
    exact ih.1.insert fragment
  | merge plan other ih ihOther => exact ⟨ih.1.merge ihOther.1, ih.2.merge ihOther.2⟩

theorem eval_congr (plan other : Plan) (fragments : ∀ f, plan.HasFragment f ↔ other.HasFragment f)
    (commits : ∀ c, plan.HasCommit c ↔ other.HasCommit c)
    (fragmentDigests : Set.InjOn (Digest.hash (α := Fragment)) {f | plan.HasFragment f})
    (commitDigests : Set.InjOn (Digest.hash (α := LooseCommit)) {c | plan.HasCommit c}) :
    plan.eval = other.eval := by
  have sameFragments := Shelf.Holds.unique fragmentDigests plan.holds.1
    (other.holds.1.congr fun f => (fragments f).symm)
  have sameCommits := Shelf.Holds.unique commitDigests plan.holds.2
    (other.holds.2.congr fun c => (commits c).symm)
  exact Sedimentree.ext (fun id => by rw [sameFragments]) (fun id => by rw [sameCommits])

end Plan

theorem Shelf.Holds.get?_iff {V : Type} [Headed V] [Encode V] {shelf : Shelf V} {candidates : V → Prop}
    (separated : Set.InjOn (Digest.hash (α := V)) {v | candidates v})
    (holds : shelf.Holds candidates) {id : CommitId} {v : V} :
    shelf.map.get? id = some v ↔ (candidates v ∧ Headed.head v = id) ∧
      ∀ w, candidates w → Headed.head w = id → Digest.hash v ≤ Digest.hash w := by
  have here := holds id
  refine ⟨fun stored => ?_, fun least => ?_⟩
  · rw [stored] at here
    exact ⟨here.candidate, fun w candidate isHead => here.least w ⟨candidate, isHead⟩⟩
  · cases stored : shelf.map.get? id with
    | none =>
      rw [stored] at here
      exact (here v least.1).elim
    | some w =>
      rw [stored] at here
      have same := le_antisymm (here.least v least.1) (least.2 w here.candidate.1 here.candidate.2)
      rw [separated here.candidate.1 least.1.1 same]

/-- **Merge order does not matter.** Where the digest separates the items: plans with the same items
give the same tree, every head holds the item of least digest, and merging is commutative,
associative and idempotent. -/
theorem merge_order_irrelevant (first second third : Plan)
    (fragmentDigests : Set.InjOn (Digest.hash (α := Fragment))
      {f | first.HasFragment f ∨ second.HasFragment f ∨ third.HasFragment f})
    (commitDigests : Set.InjOn (Digest.hash (α := LooseCommit))
      {c | first.HasCommit c ∨ second.HasCommit c ∨ third.HasCommit c}) :
    ((∀ f, first.HasFragment f ↔ second.HasFragment f) →
      (∀ c, first.HasCommit c ↔ second.HasCommit c) → first.eval = second.eval) ∧
    (∀ id f, first.eval.fragment? id = some f ↔ (first.HasFragment f ∧ f.head = id) ∧
      ∀ g, first.HasFragment g → g.head = id → Digest.hash f ≤ Digest.hash g) ∧
    (∀ id c, first.eval.commit? id = some c ↔ (first.HasCommit c ∧ c.head = id) ∧
      ∀ d, first.HasCommit d → d.head = id → Digest.hash c ≤ Digest.hash d) ∧
    first.eval.merge second.eval = second.eval.merge first.eval ∧
    (first.eval.merge second.eval).merge third.eval =
      first.eval.merge (second.eval.merge third.eval) ∧
    first.eval.merge first.eval = first.eval := by
  have fragmentsOf := fun {S : Set Fragment} (among : S ⊆ _) => fragmentDigests.mono among
  have commitsOf := fun {S : Set LooseCommit} (among : S ⊆ _) => commitDigests.mono among
  refine ⟨fun fragments commits => ?_, fun id f => ?_, fun id c => ?_, ?_, ?_, ?_⟩
  · exact Plan.eval_congr first second fragments commits (fragmentsOf fun _ => Or.inl) (commitsOf fun _ => Or.inl)
  · exact Shelf.Holds.get?_iff (fragmentsOf fun _ => Or.inl) first.holds.1
  · exact Shelf.Holds.get?_iff (commitsOf fun _ => Or.inl) first.holds.2
  · exact Plan.eval_congr (first.merge second) (second.merge first)
      (fun f => or_comm) (fun c => or_comm) (fragmentsOf fun _ => Or.imp_right Or.inl)
      (commitsOf fun _ => Or.imp_right Or.inl)
  · exact Plan.eval_congr ((first.merge second).merge third)
      (first.merge (second.merge third)) (fun f => or_assoc) (fun c => or_assoc)
      (fragmentsOf fun _ => or_assoc.mp) (commitsOf fun _ => or_assoc.mp)
  · exact Plan.eval_congr (first.merge first) first (fun f => or_self_iff)
      (fun c => or_self_iff) (fragmentsOf fun _ either => Or.inl (or_self_iff.mp either))
      (commitsOf fun _ either => Or.inl (or_self_iff.mp either))

end Merging

/-! ### Two values of one head -/

def sizedCommit (size : UInt64) : LooseCommit := ⟨⟨0⟩, .numbered 1, ∅, ⟨⟨0⟩, size⟩⟩

theorem merge_order_irrelevant_sized : letI : IterOrder CommitId := IterOrder.ascending CommitId
    letI : Blake3 := ⟨fun bytes => BitVec.ofNat _ bytes.length⟩
    letI : Bijou64 := ⟨fun size => List.replicate size.toNat 0⟩
    Set.InjOn (Digest.hash (α := LooseCommit)) {sizedCommit 1, sizedCommit 2} ∧
      (((Plan.new [] [sizedCommit 2]).addCommit (sizedCommit 1)).eval =
        ((Plan.new [] [sizedCommit 1, sizedCommit 1]).merge (Plan.new [] [sizedCommit 2])).eval) := by
  let _ : IterOrder CommitId := IterOrder.ascending CommitId
  let _ : Blake3 := ⟨fun bytes => BitVec.ofNat _ bytes.length⟩
  let _ : Bijou64 := ⟨fun size => List.replicate size.toNat 0⟩
  have distinct : Digest.hash (sizedCommit 1) ≠ Digest.hash (sizedCommit 2) := by decide +kernel
  have separated : Set.InjOn (Digest.hash (α := LooseCommit)) {sizedCommit 1, sizedCommit 2} :=
    Set.injOn_pair.mpr fun same => (distinct same).elim
  refine ⟨separated, (merge_order_irrelevant ((Plan.new [] [sizedCommit 2]).addCommit (sizedCommit 1))
    ((Plan.new [] [sizedCommit 1, sizedCommit 1]).merge (Plan.new [] [sizedCommit 2])) (Plan.new [] [])
    ?_ ?_).1 ?_ ?_⟩
  · intro f member
    simp [Plan.HasFragment] at member
  · refine separated.mono fun c member => ?_
    simp [Plan.HasCommit] at member ⊢
    exact member.elim Or.symm id
  · intro f
    simp [Plan.HasFragment]
  · intro c
    simp [Plan.HasCommit, or_comm]

end Subduction
