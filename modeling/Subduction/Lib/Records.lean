/-
**Records: the elements above everything before them.**

A filter with a high-water mark passes an element when its rank is above the mark, and raises the
mark to that rank. What passes are the records of the sequence, its left-to-right maxima.

* **`mem_records`** — an element passes exactly when it is above the mark and above everything before.
* **`exists_getLast_iff`** — of the elements of one kind the last one that passes has the highest rank
  of its kind exactly when one of that rank passes.
-/

import Mathlib.Data.List.Basic

namespace Subduction

open List

variable {α : Type*} (rank : α → Nat)

/-- The elements that pass a filter with a high-water mark. -/
def records : Nat → List α → List α
  | _, [] => []
  | mark, a :: rest => if rank a ≤ mark then records mark rest else a :: records (rank a) rest

variable {rank : α → Nat}

theorem mem_records {items : List α} : ∀ {mark : Nat} {a : α}, a ∈ records rank mark items ↔
    ∃ before after, items = before ++ a :: after ∧ mark < rank a ∧ ∀ b ∈ before, rank b < rank a := by
  induction items with
  | nil =>
    intro mark a
    simp [records]
  | cons first rest ih =>
    intro mark a
    unfold records
    by_cases low : rank first ≤ mark
    · rw [if_pos low, ih]
      constructor
      · rintro ⟨before, after, rfl, above, earlier⟩
        refine ⟨first :: before, after, rfl, above, fun b listed => ?_⟩
        rcases mem_cons.mp listed with rfl | inBefore
        · omega
        · exact earlier b inBefore
      · rintro ⟨before, after, split, above, earlier⟩
        cases before with
        | nil =>
          obtain ⟨rfl, -⟩ := List.cons.inj split
          omega
        | cons b before =>
          obtain ⟨-, rfl⟩ := List.cons.inj split
          exact ⟨before, after, rfl, above, fun c listed => earlier c (mem_cons_of_mem b listed)⟩
    · rw [if_neg low, mem_cons, ih]
      constructor
      · rintro (rfl | ⟨before, after, rfl, above, earlier⟩)
        · exact ⟨[], rest, rfl, by omega, by simp⟩
        · refine ⟨first :: before, after, rfl, by omega, fun b listed => ?_⟩
          rcases mem_cons.mp listed with rfl | inBefore
          · exact above
          · exact earlier b inBefore
      · rintro ⟨before, after, split, above, earlier⟩
        cases before with
        | nil => exact Or.inl (List.cons.inj split).1.symm
        | cons b before =>
          obtain ⟨rfl, rfl⟩ := List.cons.inj split
          exact Or.inr ⟨before, after, rfl, earlier first mem_cons_self,
            fun c listed => earlier c (mem_cons_of_mem first listed)⟩

theorem pairwise_records (items : List α) :
    ∀ mark, (records rank mark items).Pairwise fun a b => rank a < rank b := by
  induction items with
  | nil => exact fun _ => List.Pairwise.nil
  | cons first rest ih =>
    intro mark
    unfold records
    by_cases low : rank first ≤ mark
    · rw [if_pos low]
      exact ih mark
    · rw [if_neg low]
      refine pairwise_cons.mpr ⟨fun b listed => ?_, ih (rank first)⟩
      obtain ⟨-, -, -, above, -⟩ := mem_records.mp listed
      exact above

theorem exists_getLast_iff {items : List α} {top : Nat} (mark : Nat) (kind : α → Bool)
    (highest : ∀ a ∈ items, kind a = true → rank a ≤ top) :
    (∃ a, ((records rank mark items).filter kind).getLast? = some a ∧ rank a = top) ↔
      ∃ a ∈ records rank mark items, kind a = true ∧ rank a = top := by
  constructor
  · rintro ⟨a, isLast, same⟩
    obtain ⟨listed, isKind⟩ := mem_filter.mp (mem_of_getLast? isLast)
    exact ⟨a, listed, isKind, same⟩
  · rintro ⟨a, listed, isKind, rfl⟩
    have inKind : a ∈ (records rank mark items).filter kind := mem_filter.mpr ⟨listed, isKind⟩
    obtain ⟨before, last, split⟩ : ∃ before last,
        (records rank mark items).filter kind = before ++ [last] :=
      ⟨_, _, (dropLast_append_getLast (ne_nil_of_mem inKind)).symm⟩
    have ordered : ((records rank mark items).filter kind).Pairwise fun a b => rank a < rank b :=
      (pairwise_records items mark).filter kind
    have lastMember : last ∈ (records rank mark items).filter kind := by
      rw [split]
      exact mem_append_right _ mem_cons_self
    obtain ⟨lastListed, lastKind⟩ := mem_filter.mp lastMember
    obtain ⟨front, rear, isSplit, -, -⟩ := mem_records.mp lastListed
    have bounded : rank last ≤ rank a :=
      highest last (isSplit ▸ mem_append_right _ mem_cons_self) lastKind
    refine ⟨last, by rw [split, List.getLast?_concat], Nat.le_antisymm bounded ?_⟩
    rw [split] at inKind ordered
    rcases mem_append.mp inKind with earlier | isLast
    · exact Nat.le_of_lt ((pairwise_append.mp ordered).2.2 a earlier last mem_cons_self)
    · exact Nat.le_of_eq (congrArg rank (mem_singleton.mp isLast))

end Subduction
