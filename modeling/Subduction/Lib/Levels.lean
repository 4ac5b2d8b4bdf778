/-
**Levels of a search.**

A search by levels starts from the nodes of `start` and goes on from the nodes of one level along
`next`. A node is on the level `k` when a walk of `k` steps leads to it, and it is expanded on the
first one.

* **`first_succ_iff`** — a level is met first from the nodes that were met first one level before, so
  a search needs to expand every node only once.
* **`exists_lt_of_no_first`** — the search is complete when a level has no new node.
-/

import Mathlib.Data.List.Nodup
import Mathlib.Data.List.Pairwise
import Mathlib.Logic.Relation

namespace Subduction.Levels

open Relation

variable {α : Type*} (start : α → Prop) (next : α → α → Prop)

/-- A walk of `k` steps leads to the node. -/
def At : Nat → α → Prop
  | 0, a => start a
  | k + 1, a => ∃ b, At k b ∧ next b a

/-- The node is on the level `k` and on none before. -/
def First (k : Nat) (a : α) : Prop := At start next k a ∧ ∀ j < k, ¬ At start next j a

variable {start : α → Prop} {next : α → α → Prop} {k : Nat} {a : α}

theorem first_zero : First start next 0 a ↔ start a := by
  unfold First
  simp [At]

theorem first_succ_iff : First start next (k + 1) a ↔
    (∃ b, First start next k b ∧ next b a) ∧ ∀ j < k + 1, ¬ At start next j a := by
  constructor
  · rintro ⟨⟨b, atB, step⟩, fresh⟩
    refine ⟨⟨b, ⟨atB, fun j before atEarlier => ?_⟩, step⟩, fresh⟩
    exact fresh (j + 1) (by omega) ⟨b, atEarlier, step⟩
  · rintro ⟨⟨b, first, step⟩, fresh⟩
    exact ⟨⟨b, first.1, step⟩, fresh⟩

theorem exists_first {j : Nat} (isAt : At start next j a) : ∃ i ≤ j, First start next i a := by
  induction j using Nat.strongRecOn with
  | ind j ih =>
    by_cases first : First start next j a
    · exact ⟨j, Nat.le_refl j, first⟩
    · have earlier : ∃ i < j, At start next i a := by
        by_contra none
        exact first ⟨isAt, fun i before atI => none ⟨i, before, atI⟩⟩
      obtain ⟨i, before, atI⟩ := earlier
      obtain ⟨m, le, firstM⟩ := ih i before atI
      exact ⟨m, by omega, firstM⟩

theorem exists_lt_of_no_first (ended : ∀ a, ¬ First start next k a) {j : Nat}
    (isAt : At start next j a) : ∃ i < k, At start next i a := by
  induction j generalizing a with
  | zero =>
    obtain ⟨i, le, first⟩ := exists_first isAt
    obtain rfl : i = 0 := by omega
    rcases Nat.eq_zero_or_pos k with rfl | positive
    · exact absurd first (ended a)
    · exact ⟨0, positive, first.1⟩
  | succ j ih =>
    obtain ⟨b, atB, step⟩ := isAt
    obtain ⟨i, before, atI⟩ := ih atB
    have onNext : At start next (i + 1) a := ⟨b, atI, step⟩
    obtain ⟨m, le, first⟩ := exists_first onNext
    have different : m ≠ k := fun same => ended a (same ▸ first)
    exact ⟨m, by omega, first.1⟩

/-- The successors of a list of distinct nodes repeat nothing when no two nodes share one. -/
theorem nodup_flatMap_iff {ι β : Type*} {items : List ι} {key : ι → α} {successors : ι → List β}
    (distinct : (items.map key).Nodup) (each : ∀ i ∈ items, (successors i).Nodup) :
    (items.flatMap successors).Nodup ↔ ∀ i ∈ items, ∀ j ∈ items, ∀ b,
      b ∈ successors i → b ∈ successors j → key i = key j := by
  rw [List.nodup_flatMap, and_iff_right each]
  constructor
  · intro disjoint i listedI j listedJ b inI inJ
    have symmetric : Std.Symm (Function.onFun List.Disjoint successors) :=
      ⟨fun _ _ apart b inJ inI => apart inI inJ⟩
    by_contra different
    exact disjoint.forall listedI listedJ (fun same => different (congrArg key same)) inI inJ
  · intro shared
    rw [List.Nodup, List.pairwise_map] at distinct
    refine distinct.imp_of_mem fun listedI listedJ different b inI inJ => ?_
    exact different (shared _ listedI _ listedJ b inI inJ)

/-- A part of a list repeats nothing when each of its elements has one position. -/
theorem nodup_filter_iff {items : List α} {keep : α → Bool} :
    (items.filter keep).Nodup ↔ ∀ a, keep a = true → ∀ i j : Nat, items[i]? = some a →
      items[j]? = some a → i = j := by
  rw [List.Nodup, List.pairwise_filter, List.pairwise_iff_getElem]
  constructor
  · intro apart a kept i j atI atJ
    obtain ⟨insideI, valueI⟩ := List.getElem?_eq_some_iff.mp atI
    obtain ⟨insideJ, valueJ⟩ := List.getElem?_eq_some_iff.mp atJ
    rcases Nat.lt_trichotomy i j with before | same | after
    · exact absurd (valueI.trans valueJ.symm)
        (apart i j insideI insideJ before (valueI ▸ kept) (valueJ ▸ kept))
    · exact same
    · exact absurd (valueJ.trans valueI.symm)
        (apart j i insideJ insideI after (valueJ ▸ kept) (valueI ▸ kept))
  · intro once i j insideI insideJ before kept _ same
    have equal := once _ kept i j (List.getElem?_eq_getElem insideI)
      ((List.getElem?_eq_getElem insideJ).trans (congrArg some same.symm))
    omega

end Subduction.Levels
