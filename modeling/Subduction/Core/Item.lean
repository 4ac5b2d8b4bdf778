/-
**The two kinds of items of a sedimentree: loose commits and fragments.**

* `LooseCommit` — one commit: its identifier, its parents and the metadata of its blob.
* `Fragment` — a run of commits below `head` down to, and without, its `boundary`; the commits of
  positive depth inside are recorded as `checkpoints`.
* `Fragment.supports` — whether the range of a fragment contains another range. It compares heads,
  boundaries and checkpoints only.
* `Fragment.covers` — the stricter test by head and checkpoints that says the *payload* of a commit
  is inside the fragment.
-/

import Subduction.Core.Digest
import Subduction.Lib.FinMap

namespace Subduction

structure Blob where
  contents : List UInt8
deriving DecidableEq

instance : Encode Blob where
  encode blob := blob.contents

structure BlobMeta where
  digest : Digest Blob
  sizeBytes : UInt64
deriving DecidableEq

/-- `BlobMeta::new`. -/
def BlobMeta.new [Blake3] (blob : Blob) : BlobMeta :=
  ⟨Digest.hash blob, UInt64.ofNat blob.contents.length⟩

/-! ### Loose commits -/

/-- The smallest unit of metadata in a sedimentree. -/
structure LooseCommit where
  sedimentreeId : SedimentreeId
  head : CommitId
  parents : Finset CommitId
  blobMeta : BlobMeta
deriving DecidableEq

instance [Bijou64] : EncodeFields LooseCommit where
  schema := "STC".toUTF8.toList ++ [0]
  discriminant := none
  encodeFields commit :=
    commit.sedimentreeId.asBytes ++ commit.head.asBytes ++ commit.blobMeta.digest.asBytes
      ++ [UInt8.ofNat commit.parents.card] ++ Bijou64.encode commit.blobMeta.sizeBytes
      ++ (ascendingList commit.parents).flatMap CommitId.asBytes

/-! ### Fragments -/

/-- The minimal data of a fragment. -/
structure FragmentSummary where
  head : CommitId
  boundary : Finset CommitId
  blobMeta : BlobMeta
deriving DecidableEq

/-- A portion of a sedimentree: the commits from `head` down to the boundary. -/
structure Fragment where
  sedimentreeId : SedimentreeId
  summary : FragmentSummary
  checkpoints : Finset Checkpoint
deriving DecidableEq

namespace Fragment

/-- `Fragment::head`. -/
def head (fragment : Fragment) : CommitId := fragment.summary.head

/-- `Fragment::boundary`. -/
def boundary (fragment : Fragment) : Finset CommitId := fragment.summary.boundary

/-- `Fragment::new`: the checkpoints are given as full identifiers and truncated. -/
def new (sedimentreeId : SedimentreeId) (head : CommitId) (boundary : Finset CommitId)
    (checkpoints : Finset CommitId) (blobMeta : BlobMeta) : Fragment :=
  ⟨sedimentreeId, ⟨head, boundary, blobMeta⟩, checkpoints.image Checkpoint.new⟩

/-- `Fragment::depth`. -/
def depth (fragment : Fragment) (metric : DepthMetric) : Depth := metric fragment.head

/-- `Fragment::supports_block`: the head, a checkpoint or a boundary commit. -/
def supportsBlock (fragment : Fragment) (id : CommitId) : Bool :=
  decide (fragment.head = id) || decide (Checkpoint.new id ∈ fragment.checkpoints)
    || decide (id ∈ fragment.boundary)

/-- `Fragment::supports`. -/
def supports (fragment : Fragment) (other : FragmentSummary) (metric : DepthMetric) : Bool :=
  if fragment.summary = other then true
  else if fragment.depth metric < metric other.head then false
  else if !fragment.supportsBlock other.head then false
  else decide (∀ b ∈ other.boundary, fragment.supportsBlock b = true)
    || decide (other.boundary ⊆ fragment.boundary)

/-- The payload of `id` is in the blob of the fragment: boundary commits are not. -/
def covers (fragment : Fragment) (id : CommitId) : Bool :=
  decide (fragment.head = id) || decide (Checkpoint.new id ∈ fragment.checkpoints)

theorem supportsBlock_iff {fragment : Fragment} {id : CommitId} : fragment.supportsBlock id = true ↔
      fragment.head = id ∨ Checkpoint.new id ∈ fragment.checkpoints ∨ id ∈ fragment.boundary := by
  unfold supportsBlock
  simp only [Bool.or_eq_true, decide_eq_true_eq, or_assoc]

theorem covers_iff {fragment : Fragment} {id : CommitId} :
    fragment.covers id = true ↔ fragment.head = id ∨ Checkpoint.new id ∈ fragment.checkpoints := by
  unfold covers
  simp only [Bool.or_eq_true, decide_eq_true_eq]

theorem supports_iff_of_depth_lt {fragment other : Fragment} {metric : DepthMetric}
    (deeper : other.depth metric < fragment.depth metric) :
    fragment.supports other.summary metric = true ↔ fragment.supportsBlock other.head = true ∧
        ((∀ b ∈ other.boundary, fragment.supportsBlock b = true) ∨
          other.boundary ⊆ fragment.boundary) := by
  have distinct : fragment.summary ≠ other.summary := by
    intro same
    unfold depth head at deeper
    rw [same] at deeper
    exact lt_irrefl _ deeper
  have notShallower : ¬ fragment.depth metric < metric other.summary.head :=
    not_lt.mpr (le_of_lt deeper)
  unfold supports
  rw [if_neg distinct, if_neg notShallower]
  by_cases block : fragment.supportsBlock other.head = true
  · have block' : fragment.supportsBlock other.summary.head = true := block
    rw [block']
    simp only [Bool.not_true, Bool.false_eq_true, if_false, Bool.or_eq_true, decide_eq_true_eq]
    exact ⟨fun either => ⟨block, either⟩, fun both => both.2⟩
  · have block' : fragment.supportsBlock other.summary.head = false := Bool.eq_false_iff.mpr block
    rw [block']
    simp only [Bool.not_false, if_true, Bool.false_eq_true, false_iff]
    exact fun both => block both.1

instance [Bijou64] : EncodeFields Fragment where
  schema := "STF".toUTF8.toList ++ [0]
  discriminant := none
  encodeFields fragment :=
    fragment.sedimentreeId.asBytes ++ fragment.head.asBytes
      ++ fragment.summary.blobMeta.digest.asBytes ++ [UInt8.ofNat fragment.boundary.card]
      ++ bytesBE 2 (BitVec.ofNat (8 * 2) fragment.checkpoints.card)
      ++ Bijou64.encode fragment.summary.blobMeta.sizeBytes
      ++ (ascendingList fragment.boundary).flatMap CommitId.asBytes
      ++ (ascendingList fragment.checkpoints).flatMap Checkpoint.asBytes

end Fragment

end Subduction
