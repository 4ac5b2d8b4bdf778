/-
**The minimal hash.**

The hash of a tree is over the identifiers in its minimal tree and, behind them, the checkpoints, both
in ascending order. No tag says whether an identifier is the head of a fragment, in a boundary or a loose
commit, and no count says where the checkpoints begin.

Main results: `minimalHash_eq_iff`, `lone_fragment_hash`.
-/

import Subduction.Codec.Decode
import Subduction.Core.Minimize
import Subduction.Lib.Reading

namespace Subduction

open List

/-- `MinimalTreeHash`. -/
structure MinimalTreeHash where
  bytes : BitVec (8 * 32)
deriving DecidableEq

namespace Sedimentree

theorem insertionSort_eq_iff {α : Type} [LinearOrder α] {one two : List α} :
    one.insertionSort (· ≤ ·) = two.insertionSort (· ≤ ·) ↔ one.Perm two := by
  refine ⟨fun same => ?_, fun perm => ?_⟩
  · exact (perm_insertionSort _ one).symm.trans (same ▸ perm_insertionSort _ two)
  · refine List.Perm.eq_of_pairwise (fun _ _ _ _ => le_antisymm) (pairwise_insertionSort _ _)
      (pairwise_insertionSort _ _) ?_
    exact (perm_insertionSort _ one).trans (perm.trans (perm_insertionSort _ two).symm)

variable [IterOrder CommitId]

section Hash

variable (tree : Sedimentree)

/-- The heads and the boundaries of the fragments, and the heads of the loose commits. -/
def hashedIds : List CommitId :=
  (tree.fragments.map.values.flatMap fun fragment => fragment.head :: ascendingList fragment.boundary)
    ++ tree.commits.map.values.map LooseCommit.head

def hashedCheckpoints : List Checkpoint :=
  tree.fragments.map.values.flatMap fun fragment => ascendingList fragment.checkpoints

def hashedBytes : List UInt8 :=
  (tree.hashedIds.insertionSort (· ≤ ·)).flatMap CommitId.asBytes
    ++ (tree.hashedCheckpoints.insertionSort (· ≤ ·)).flatMap Checkpoint.asBytes

/-- `Sedimentree::minimal_hash`. -/
def minimalHash [Blake3] [Bijou64] (metric : DepthMetric) : MinimalTreeHash :=
  ⟨Blake3.hash (tree.minimize metric).hashedBytes⟩

/-- The head, the boundary and the checkpoints of each fragment. -/
def shapes : List (CommitId × Finset CommitId × Finset Checkpoint) :=
  tree.fragments.map.values.map fun fragment => (fragment.head, fragment.boundary, fragment.checkpoints)

end Hash

/-- **The trees are alike**: the same fragments, by head, boundary and checkpoints, and the same
identifiers of loose commits. -/
def Alike (first second : Sedimentree) : Prop :=
  first.shapes.toFinset = second.shapes.toFinset ∧ first.commitKeys = second.commitKeys

instance (first second : Sedimentree) : Decidable (Alike first second) := instDecidableAnd

variable {first second : Sedimentree}

theorem nodup_shapes (tree : Sedimentree) : tree.shapes.Nodup := by
  refine .of_map Prod.fst ?_
  unfold shapes
  rw [map_map]
  exact tree.fragments.nodup_map_head_values

theorem Alike.perm (alike : Alike first second) :
    first.hashedIds.Perm second.hashedIds ∧ first.hashedCheckpoints.Perm second.hashedCheckpoints := by
  have shapes := perm_of_nodup_nodup_toFinset_eq first.nodup_shapes second.nodup_shapes alike.1
  have heads : first.commits.map.values.map LooseCommit.head = second.commits.map.values.map LooseCommit.head :=
    first.commits.map_head_values.trans ((congrArg IterOrder.list alike.2).trans
      second.commits.map_head_values.symm)
  have ids := shapes.flatMap_right fun shape => shape.1 :: ascendingList shape.2.1
  have checkpoints := shapes.flatMap_right fun shape => ascendingList shape.2.2
  unfold Sedimentree.shapes at ids checkpoints
  rw [flatMap_map, flatMap_map] at ids checkpoints
  exact ⟨ids.append (.of_eq heads), checkpoints⟩

theorem hashedBytes_eq_of_perm (perms : first.hashedIds.Perm second.hashedIds ∧
      first.hashedCheckpoints.Perm second.hashedCheckpoints) : first.hashedBytes = second.hashedBytes := by
  unfold hashedBytes
  rw [insertionSort_eq_iff.mpr perms.1, insertionSort_eq_iff.mpr perms.2]

theorem perm_of_hashedBytes_eq (count : first.hashedIds.length = second.hashedIds.length)
    (same : first.hashedBytes = second.hashedBytes) :
    first.hashedIds.Perm second.hashedIds ∧ first.hashedCheckpoints.Perm second.hashedCheckpoints := by
  have size (ids : List CommitId) : (ids.flatMap CommitId.asBytes).length = ids.length * 32 := by
    simp [length_flatMap]
  -- with equally many identifiers the checkpoints begin at the same place
  obtain ⟨ids, checkpoints⟩ := append_inj same
    (by rw [size, size, length_insertionSort, length_insertionSort, count])
  refine ⟨insertionSort_eq_iff.mp ?_, insertionSort_eq_iff.mp ?_⟩
  · exact flatMap_injective_of_length (by decide) CommitId.length_asBytes
      ((bytesBE_injective 32).comp fun ⟨_⟩ ⟨_⟩ same => congrArg CommitId.mk same) ids
  · exact flatMap_injective_of_length (by decide) Checkpoint.length_asBytes
      ((bytesBE_injective 12).comp fun ⟨_⟩ ⟨_⟩ same => congrArg Checkpoint.mk same) checkpoints

/-- **What the minimal hash identifies**, where the hash function has no collision: the bytes that are
hashed. Trees that are alike when minimized have one hash. Trees whose minimal trees list equally many
identifiers have one hash exactly when these list the same identifiers and the same checkpoints. -/
theorem minimalHash_eq_iff [Blake3] [Bijou64] (metric : DepthMetric) (first second : Sedimentree)
    (collisionless : Set.InjOn Blake3.hash
      {(first.minimize metric).hashedBytes, (second.minimize metric).hashedBytes}) :
    let one := first.minimize metric
    let two := second.minimize metric
    (first.minimalHash metric = second.minimalHash metric ↔ one.hashedBytes = two.hashedBytes) ∧
      (Alike one two → first.minimalHash metric = second.minimalHash metric) ∧
      (one.hashedIds.length = two.hashedIds.length →
        (first.minimalHash metric = second.minimalHash metric ↔
          one.hashedIds.Perm two.hashedIds ∧ one.hashedCheckpoints.Perm two.hashedCheckpoints)) := by
  intro one two
  have hash_eq_iff : first.minimalHash metric = second.minimalHash metric ↔
      one.hashedBytes = two.hashedBytes := by
    refine ⟨fun same => ?_, fun same => congrArg (fun bytes => MinimalTreeHash.mk (Blake3.hash bytes)) same⟩
    exact collisionless (Or.inl rfl) (Or.inr rfl) (MinimalTreeHash.mk.inj same)
  refine ⟨hash_eq_iff, fun alike => hash_eq_iff.mpr (hashedBytes_eq_of_perm alike.perm), fun count => ?_⟩
  exact hash_eq_iff.trans ⟨perm_of_hashedBytes_eq count, hashedBytes_eq_of_perm⟩

end Sedimentree

/-! ### A fragment and a loose commit -/

attribute [local instance] IterOrder.ascending lastBytes eightBytes

def loneFragment : Sedimentree := .new [⟨⟨1⟩, ⟨.numbered 1, ∅, ⟨⟨2⟩, 3⟩⟩, ∅⟩] []

def loneCommit : Sedimentree := .new [] [⟨⟨1⟩, .numbered 1, ∅, ⟨⟨2⟩, 3⟩⟩]

theorem lone_collisionless : Set.InjOn Blake3.hash {(loneFragment.minimize fun _ => 1).hashedBytes,
    (loneCommit.minimize fun _ => 1).hashedBytes} := by
  have same : (loneFragment.minimize fun _ => 1).hashedBytes =
      (loneCommit.minimize fun _ => 1).hashedBytes := by decide +kernel
  rw [same, Set.pair_eq_singleton]
  exact Set.injOn_singleton _ _

/-- **A fragment hashes as a loose commit does.** -/
theorem lone_fragment_hash : Set.InjOn Blake3.hash {(loneFragment.minimize fun _ => 1).hashedBytes,
        (loneCommit.minimize fun _ => 1).hashedBytes} ∧
      loneFragment.minimalHash (fun _ => 1) = loneCommit.minimalHash (fun _ => 1) ∧
      ¬ Sedimentree.Alike (loneFragment.minimize fun _ => 1) (loneCommit.minimize fun _ => 1) :=
  ⟨lone_collisionless, by decide +kernel, by decide +kernel⟩

theorem minimalHash_eq_iff_lone :
    loneFragment.minimalHash (fun _ => 1) = loneCommit.minimalHash (fun _ => 1) := by
  refine ((Sedimentree.minimalHash_eq_iff _ loneFragment loneCommit lone_collisionless).2.2 ?_).mpr ⟨?_, ?_⟩
  · decide +kernel
  · decide +kernel
  · decide +kernel

end Subduction
