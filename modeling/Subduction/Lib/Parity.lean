/-
**Sums in which every summand cancels itself.**

For a commutative and associative operation with a unit in which every element is its own inverse, the
sum over a finite set says which elements it has only up to even repetition: two sets have the same sum
exactly when the sum over their symmetric difference is the unit.

* **`Parity.sum_symmDiff`**, **`Parity.sum_eq_iff`** — the sum over a symmetric difference.
-/

import Mathlib.Data.Finset.Fold
import Mathlib.Data.Finset.SymmDiff

set_option linter.unusedSectionVars false

namespace Subduction

open Finset

/-- **A commutative operation in which every element is its own inverse.** -/
structure Parity (β : Type*) where
  op : β → β → β
  unit : β
  comm : ∀ first second, op first second = op second first
  assoc : ∀ first second third, op (op first second) third = op first (op second third)
  unit_op : ∀ value, op unit value = value
  self_op : ∀ value, op value value = unit

namespace Parity

open scoped symmDiff

variable {α β : Type*} [DecidableEq α] (parity : Parity β) (weight : α → β)

instance : Std.Commutative parity.op := ⟨parity.comm⟩

instance : Std.Associative parity.op := ⟨parity.assoc⟩

def sum (set : Finset α) : β := set.fold parity.op parity.unit weight

theorem sum_union {first second : Finset α} (disjoint : Disjoint first second) :
    parity.sum weight (first ∪ second) =
      parity.op (parity.sum weight first) (parity.sum weight second) := by
  have united : (first.disjUnion second disjoint).fold parity.op (parity.op parity.unit parity.unit)
      weight = parity.op (parity.sum weight first) (parity.sum weight second) :=
    fold_disjUnion disjoint
  rwa [parity.unit_op, disjUnion_eq_union] at united

theorem op_eq_unit_iff {first second : β} : parity.op first second = parity.unit ↔ first = second := by
  constructor
  · intro cancels
    calc first = parity.op parity.unit first := (parity.unit_op first).symm
      _ = parity.op first parity.unit := parity.comm _ _
      _ = parity.op first (parity.op second second) := by rw [parity.self_op]
      _ = parity.op (parity.op first second) second := (parity.assoc _ _ _).symm
      _ = second := by rw [cancels, parity.unit_op]
  · rintro rfl
    exact parity.self_op first

theorem sum_symmDiff (first second : Finset α) :
    parity.op (parity.sum weight first) (parity.sum weight second) =
      parity.sum weight (first ∆ second) := by
  have cut (one other : Finset α) : parity.sum weight one =
      parity.op (parity.sum weight (one \ other)) (parity.sum weight (one ∩ other)) := by
    rw [← sum_union _ _ (disjoint_sdiff_inter one other), sdiff_union_inter]
  rw [cut first second, cut second first, inter_comm second first, symmDiff_def,
    sup_eq_union, sum_union _ _ disjoint_sdiff_sdiff]
  set common := parity.sum weight (first ∩ second)
  set left := parity.sum weight (first \ second)
  set right := parity.sum weight (second \ first)
  calc parity.op (parity.op left common) (parity.op right common)
      = parity.op left (parity.op common (parity.op common right)) := by
        rw [parity.assoc, parity.comm right common]
    _ = parity.op left right := by
        rw [← parity.assoc common, parity.self_op, parity.unit_op]

theorem sum_eq_iff {first second : Finset α} : parity.sum weight first = parity.sum weight second ↔
      parity.sum weight (first ∆ second) = parity.unit := by
  rw [← sum_symmDiff, op_eq_unit_iff]

theorem sum_eq_foldl {set : Finset α} {list : List α} (listing : (list : Multiset α) = set.val) :
    list.foldl (fun total item => parity.op total (weight item)) parity.unit = parity.sum weight set := by
  unfold sum Finset.fold
  rw [← listing, Multiset.map_coe, Multiset.coe_fold_l, List.foldl_map]

end Parity

end Subduction
