/-
**Sweeping a ranked dominance relation from the top rank down.**

Every item has a rank, and a kept item removes the items of strictly smaller rank that it
dominates. The items that stay are the *kernel* of the relation: an item stays exactly when no
item that stays, of strictly larger rank, dominates it.

* **`sweep_kernel`** — it computes the kernel.
-/

import Mathlib.Data.List.Dedup
import Mathlib.Data.List.Sort
import Mathlib.Order.Basic

namespace Subduction

open List

variable {α : Type*}

/-- **The kernel of a ranked dominance relation** on the items `items`. -/
def Kernel (rank : α → Nat) (dominates : α → α → Prop) (items kept : α → Prop) : Prop :=
  ∀ a, kept a ↔ items a ∧ ∀ g, kept g → rank a < rank g → ¬ dominates g a

namespace Kernel

variable {rank : α → Nat} {dominates : α → α → Prop} {items kept : α → Prop}

theorem item (kernel : Kernel rank dominates items kept) {a : α} (stays : kept a) : items a :=
  ((kernel a).mp stays).1

theorem dominated (kernel : Kernel rank dominates items kept) {a : α} (member : items a)
    (dropped : ¬ kept a) : ∃ g, kept g ∧ rank a < rank g ∧ dominates g a := by
  by_contra none
  refine dropped ((kernel a).mpr ⟨member, fun g stays above dominated => none ?_⟩)
  exact ⟨g, stays, above, dominated⟩

theorem climb (kept : α → Prop) {bound : Nat} (bounded : ∀ a, items a → rank a ≤ bound) (Q : α → Prop)
    (handOver : ∀ a, items a → ¬ kept a → Q a → ∃ b, items b ∧ rank a < rank b ∧ Q b) {a : α}
    (member : items a) (holds : Q a) : ∃ b, items b ∧ kept b ∧ rank a ≤ rank b ∧ Q b := by
  induction room : bound - rank a using Nat.strong_induction_on generalizing a with
  | _ room ih =>
    by_cases stays : kept a
    · exact ⟨a, member, stays, le_rfl, holds⟩
    · obtain ⟨b, inItems, above, holdsB⟩ := handOver a member stays holds
      have small := bounded b inItems
      obtain ⟨c, inItems, stays, le, holdsC⟩ := ih (bound - rank b) (by omega) inItems holdsB rfl
      exact ⟨c, inItems, stays, by omega, holdsC⟩

theorem mem_iff_maximal {bound : Nat} (bounded : ∀ a, items a → rank a ≤ bound)
    (kernel : Kernel rank dominates items kept)
    (transitive : ∀ a b c, items a → items b → items c → rank a < rank b → rank b < rank c →
      dominates b a → dominates c b → dominates c a) (a : α) :
    kept a ↔ items a ∧ ∀ g, items g → rank a < rank g → ¬ dominates g a := by
  constructor
  · intro stays
    refine ⟨kernel.item stays, fun g member above dominated => ?_⟩
    have inItems := kernel.item stays
    obtain ⟨top, topItem, topStays, topAbove, topDominates⟩ :=
      climb kept bounded (fun g => rank a < rank g ∧ dominates g a) (by
        rintro b inB dropped ⟨aboveA, dominatesA⟩
        obtain ⟨c, staysC, aboveB, dominatesB⟩ := kernel.dominated inB dropped
        have inC := kernel.item staysC
        exact ⟨c, inC, aboveB, aboveA.trans aboveB,
          transitive a b c inItems inB inC aboveA aboveB dominatesA dominatesB⟩)
        member ⟨above, dominated⟩
    exact ((kernel a).mp stays).2 top topStays topDominates.1 topDominates.2
  · rintro ⟨member, clear⟩
    exact (kernel a).mpr ⟨member, fun g stays => clear g (kernel.item stays)⟩

end Kernel

/-! ### The sweep -/

/-- Add to `kept` the items of one rank that no kept item of larger rank dominates. -/
def sweepGroup (rank : α → Nat) (dominates : α → α → Bool) (level : Nat) (group kept : List α) :
    List α :=
  group.foldl (fun kept item =>
    if kept.any fun deeper => decide (level < rank deeper) && dominates deeper item then kept
    else kept ++ [item]) kept

def levels (rank : α → Nat) (items : List α) : List Nat :=
  ((items.map rank).dedup).insertionSort (· ≥ ·)

/-- **The sweep**: one rank after the other, the largest first. -/
def sweep (rank : α → Nat) (dominates : α → α → Bool) (items : List α) : List α :=
  (levels rank items).foldl (fun kept level =>
    sweepGroup rank dominates level (items.filter fun item => rank item = level) kept) []

variable {rank : α → Nat} {dominates : α → α → Bool}

theorem mem_sweepGroup {level : Nat} (group : List α) :
    ∀ {kept : List α}, (∀ item ∈ group, rank item = level) → ∀ a,
      a ∈ sweepGroup rank dominates level group kept ↔ a ∈ kept ∨
        a ∈ group ∧ ∀ g ∈ kept, level < rank g → dominates g a = false := by
  induction group with
  | nil =>
    intro kept _ a
    simp [sweepGroup]
  | cons item group ih =>
    intro kept ranked a
    have itemRank : rank item = level := ranked item mem_cons_self
    have rest := fun {kept} => @ih kept fun other member => ranked other (mem_cons_of_mem _ member)
    unfold sweepGroup at rest ⊢
    rw [foldl_cons, rest]
    by_cases dominated : (kept.any fun deeper =>
        decide (level < rank deeper) && dominates deeper item) = true
    · rw [if_pos dominated]
      refine or_congr_right ⟨fun stays => ⟨mem_cons_of_mem _ stays.1, stays.2⟩, fun stays => ?_⟩
      rcases mem_cons.mp stays.1 with rfl | member
      · obtain ⟨g, inKept, above⟩ := any_eq_true.mp dominated
        rw [Bool.and_eq_true, decide_eq_true_eq] at above
        have clear := stays.2 g inKept above.1
        rw [above.2] at clear
        exact absurd clear (by simp)
      · exact ⟨member, stays.2⟩
    · rw [if_neg dominated]
      have clear : ∀ g ∈ kept, level < rank g → dominates g item = false := by
        intro g inKept above
        by_contra dominates
        refine dominated (any_eq_true.mpr ⟨g, inKept, ?_⟩)
        rw [Bool.and_eq_true, decide_eq_true_eq]
        exact ⟨above, by simpa using dominates⟩
      have same : ∀ b, (∀ g ∈ kept ++ [item], level < rank g → dominates g b = false) ↔
          ∀ g ∈ kept, level < rank g → dominates g b = false := by
        intro b
        refine ⟨fun all g member => all g (mem_append_left _ member), fun all g member above => ?_⟩
        rcases mem_append.mp member with member | member
        · exact all g member above
        · rw [mem_singleton.mp member, itemRank] at above
          exact absurd above (lt_irrefl _)
      rw [same, mem_append, mem_singleton, mem_cons]
      constructor
      · rintro ((inKept | rfl) | ⟨inGroup, all⟩)
        · exact Or.inl inKept
        · exact Or.inr ⟨Or.inl rfl, clear⟩
        · exact Or.inr ⟨Or.inr inGroup, all⟩
      · rintro (inKept | ⟨rfl | inGroup, all⟩)
        · exact Or.inl (Or.inl inKept)
        · exact Or.inl (Or.inr rfl)
        · exact Or.inr ⟨inGroup, all⟩

theorem sweep_step (items : List α) (todo : List Nat) :
    ∀ (swept : Nat → Prop) {kept : List α}, todo.Pairwise (· > ·) →
      (∀ level ∈ todo, ∀ done, swept done → level < done) →
      Kernel rank (fun g a => dominates g a = true) (fun a => a ∈ items ∧ swept (rank a)) (· ∈ kept) →
      Kernel rank (fun g a => dominates g a = true)
        (fun a => a ∈ items ∧ (swept (rank a) ∨ rank a ∈ todo))
        (· ∈ todo.foldl (fun kept level => sweepGroup rank dominates level
          (items.filter fun item => rank item = level) kept) kept) := by
  induction todo with
  | nil =>
    intro swept kept _ _ kernel
    simpa using kernel
  | cons level todo ih =>
    intro swept kept descending below kernel
    rw [pairwise_cons] at descending
    have grouped : ∀ a, a ∈ sweepGroup rank dominates level
        (items.filter fun item => rank item = level) kept ↔ a ∈ kept ∨
          (a ∈ items ∧ rank a = level) ∧ ∀ g ∈ kept, level < rank g → dominates g a = false := by
      intro a
      rw [mem_sweepGroup _ fun item member => by simpa using (mem_filter.mp member).2]
      simp [mem_filter]
    have next : Kernel rank (fun g a => dominates g a = true)
        (fun a => a ∈ items ∧ (swept (rank a) ∨ rank a = level))
        (· ∈ sweepGroup rank dominates level (items.filter fun item => rank item = level) kept) := by
      intro a
      have sweptAbove : ∀ b, swept (rank b) → level < rank b := fun b =>
        below level mem_cons_self (rank b)
      refine (grouped a).trans ?_
      constructor
      · rintro (inKept | ⟨⟨inItems, atLevel⟩, clear⟩)
        · obtain ⟨⟨inItems, done⟩, clear⟩ := (kernel a).mp inKept
          refine ⟨⟨inItems, Or.inl done⟩, fun g inNext above => ?_⟩
          rcases (grouped g).mp inNext with inKept | ⟨⟨-, atLevel⟩, -⟩
          · exact clear g inKept above
          · have := sweptAbove a done
            omega
        · refine ⟨⟨inItems, Or.inr atLevel⟩, fun g inNext above => ?_⟩
          rcases (grouped g).mp inNext with inKept | ⟨⟨-, gLevel⟩, -⟩
          · exact Bool.eq_false_iff.mp (clear g inKept (by omega))
          · omega
      · rintro ⟨⟨inItems, done | atLevel⟩, clear⟩
        · refine Or.inl ((kernel a).mpr ⟨⟨inItems, done⟩, fun g inKept => ?_⟩)
          exact clear g ((grouped g).mpr (Or.inl inKept))
        · refine Or.inr ⟨⟨inItems, atLevel⟩, fun g inKept above => ?_⟩
          have undominated := clear g ((grouped g).mpr (Or.inl inKept)) (by omega)
          simpa using undominated
    have final := ih (fun rank => swept rank ∨ rank = level) descending.2 (by
      rintro other member done (old | rfl)
      · exact below other (mem_cons_of_mem _ member) done old
      · exact descending.1 other member) next
    rw [foldl_cons]
    simpa only [mem_cons, or_assoc] using final

theorem levels_pairwise (rank : α → Nat) (items : List α) : (levels rank items).Pairwise (· > ·) := by
  have sorted : (levels rank items).Pairwise (· ≥ ·) := pairwise_insertionSort (· ≥ ·) _
  have distinct : (levels rank items).Pairwise (· ≠ ·) :=
    ((perm_insertionSort (· ≥ ·) _).nodup_iff).mpr (nodup_dedup _)
  exact (sorted.and distinct).imp fun both => lt_of_le_of_ne both.1 both.2.symm

theorem mem_levels {rank : α → Nat} {items : List α} {a : α} (member : a ∈ items) :
    rank a ∈ levels rank items := by
  unfold levels
  rw [(perm_insertionSort (· ≥ ·) _).mem_iff, mem_dedup]
  exact mem_map_of_mem member

theorem sweep_kernel (rank : α → Nat) (dominates : α → α → Bool) (items : List α) :
    Kernel rank (fun g a => dominates g a = true) (· ∈ items) (· ∈ sweep rank dominates items) := by
  have start : Kernel rank (fun g a => dominates g a = true) (fun a => a ∈ items ∧ False)
      (· ∈ ([] : List α)) := fun a => by simp
  have final := sweep_step items (levels rank items) (fun _ => False) (levels_pairwise rank items)
    (fun _ _ _ (impossible : False) => impossible.elim) start
  intro a
  exact (final a).trans (and_congr_left fun _ =>
    ⟨fun member => member.1, fun member => ⟨member, Or.inr (mem_levels member)⟩⟩)

end Subduction
