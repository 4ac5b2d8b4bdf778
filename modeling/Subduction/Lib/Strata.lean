/-
**Strata of a directed graph whose nodes have a depth.**

The span of a head is what a walk from it reaches through nodes shallower than the head; the
nodes at least as deep where the walk stops are its rim. The heads above a head are those up the
chain of rims. A node in the span of several heads is owned by the last ones of such a chain.

* **`Span.owner`** — in a well-founded graph everything in the span of a head is owned by the head
  or by one above it.
* `Closed heads` — everything a head spans is owned by a head at least as deep. **`Closed.kernel`**:
  this survives a sweep that removes heads lying in the span of a deeper one.
-/

import Mathlib.Data.Fintype.Card
import Mathlib.Data.Fintype.EquivFin
import Mathlib.Data.Fintype.Sets
import Mathlib.Logic.Relation
import Mathlib.Order.WellFounded
import Subduction.Lib.Sweep

namespace Subduction.Strata

open Relation

variable {α : Type*} (edge : α → α → Prop) (depth : α → Nat)

/-- What a walk from `h` reaches through nodes shallower than `h`. -/
def Span (h x : α) : Prop := ReflTransGen (fun a b => edge a b ∧ depth b < depth h) h x

/-- The nodes at least as deep as `h` where the walk stops. -/
def Rim (h b : α) : Prop := ∃ a, Span edge depth h a ∧ edge a b ∧ depth h ≤ depth b

/-- The heads up the chain of rims. -/
def Above : α → α → Prop := TransGen (Rim edge depth)

/-- In the span of `h` and of no head above it. -/
def Owned (h x : α) : Prop := Span edge depth h x ∧ ∀ g, Above edge depth h g → ¬ Span edge depth g x

/-- The owned nodes of positive depth, the head apart. -/
def Point (h x : α) : Prop := Owned edge depth h x ∧ 0 < depth x ∧ depth x < depth h

variable {edge : α → α → Prop} {depth : α → Nat} {h g x y : α}

/-! ### Paths -/

theorem Span.eq_or_depth_lt (spans : Span edge depth h x) : x = h ∨ depth x < depth h := by
  cases spans with
  | refl => exact Or.inl rfl
  | tail _ last => exact Or.inr last.2

theorem Span.path (spans : Span edge depth h x) : ReflTransGen edge h x :=
  ReflTransGen.mono (fun _ _ step => step.1) _ _ spans

theorem Span.trans (first : Span edge depth h y) (below : depth y ≤ depth h)
    (second : Span edge depth y x) : Span edge depth h x :=
  ReflTransGen.trans first
    (ReflTransGen.mono (fun _ _ step => ⟨step.1, lt_of_lt_of_le step.2 below⟩) _ _ second)

theorem Span.of_flat (positive : 0 < depth h)
    (path : ReflTransGen (fun a b => edge a b ∧ depth b = 0) h x) : Span edge depth h x :=
  ReflTransGen.mono (fun _ _ step => ⟨step.1, step.2.symm ▸ positive⟩) _ _ path

theorem Rim.path (rim : Rim edge depth h x) : TransGen edge h x := by
  obtain ⟨a, spans, step, -⟩ := rim
  exact TransGen.tail' spans.path step

theorem Above.path (above : Above edge depth h g) : TransGen edge h g := by
  induction above with
  | single rim => exact rim.path
  | tail _ rim ih => exact ih.trans rim.path

theorem Above.depth_le (above : Above edge depth h g) : depth h ≤ depth g := by
  induction above with
  | single rim => exact rim.choose_spec.2.2
  | tail _ rim ih => exact ih.trans rim.choose_spec.2.2

theorem Span.step (spans : Span edge depth h x) (step : edge x y) :
    Span edge depth h y ∨ Rim edge depth h y := by
  rcases lt_or_ge (depth y) (depth h) with below | above
  · exact Or.inl (spans.tail ⟨step, below⟩)
  · exact Or.inr ⟨x, spans, step, above⟩

/-- **The walk of a span**: expanding the head and every shallower node reaches exactly the span
and the rim. -/
theorem walk_iff : ReflTransGen (fun a b => edge a b ∧ (a = h ∨ depth a < depth h)) h x ↔
    Span edge depth h x ∨ Rim edge depth h x := by
  have expand : ∀ a, Span edge depth h a →
      ReflTransGen (fun a b => edge a b ∧ (a = h ∨ depth a < depth h)) h a := by
    intro a spans
    induction spans with
    | refl => exact .refl
    | tail spans step ih => exact ih.tail ⟨step.1, Span.eq_or_depth_lt spans⟩
  constructor
  · intro path
    induction path with
    | refl => exact Or.inl .refl
    | tail _ step ih =>
      obtain ⟨step, expanded⟩ := step
      refine Span.step ?_ step
      rcases ih with spans | ⟨_, _, _, deep⟩
      · exact spans
      · rcases expanded with rfl | shallow
        · exact .refl
        · exact absurd deep (not_le.mpr shallow)
  · rintro (spans | ⟨a, spans, step, -⟩)
    · exact expand x spans
    · exact (expand a spans).tail ⟨step, spans.eq_or_depth_lt⟩

/-! ### Finite acyclic graphs -/

section Finite

variable (nodes : Finset α) (inside : ∀ a b, edge a b → a ∈ nodes)
  (acyclic : ∀ a, ¬ TransGen edge a a)
include inside acyclic

theorem founded_of_acyclic : WellFounded (Function.swap edge) := by
  let above : {a // a ∈ nodes} → {a // a ∈ nodes} → Prop := fun a b => TransGen edge b.1 a.1
  have isTrans : IsTrans _ above := ⟨fun _ _ _ first second => second.trans first⟩
  have isIrrefl : Std.Irrefl above := ⟨fun a => acyclic a.1⟩
  have founded : WellFounded above := Finite.wellFounded_of_trans_of_irrefl above
  have accessible : ∀ a : {a // a ∈ nodes}, Acc (Function.swap edge) a.1 := by
    intro a
    induction a using founded.induction with
    | _ a ih =>
      refine Acc.intro _ fun b step => ?_
      by_cases inNodes : b ∈ nodes
      · exact ih ⟨b, inNodes⟩ (.single step)
      · exact Acc.intro _ fun c next => absurd (inside b c next) inNodes
  refine ⟨fun a => ?_⟩
  by_cases inNodes : a ∈ nodes
  · exact accessible ⟨a, inNodes⟩
  · exact Acc.intro _ fun b step => absurd (inside a b step) inNodes

/-- In a finite acyclic graph every node is below one without predecessors. -/
theorem exists_source {a : α} (inNodes : a ∈ nodes) :
    ∃ top ∈ nodes, ReflTransGen edge top a ∧ ∀ b, ¬ edge b top := by
  let below : {a // a ∈ nodes} → {a // a ∈ nodes} → Prop := fun a b => TransGen edge a.1 b.1
  have isTrans : IsTrans _ below := ⟨fun _ _ _ first second => first.trans second⟩
  have isIrrefl : Std.Irrefl below := ⟨fun a => acyclic a.1⟩
  have founded : WellFounded below := Finite.wellFounded_of_trans_of_irrefl below
  have climb : ∀ a : {a // a ∈ nodes}, ∃ top ∈ nodes, ReflTransGen edge top a.1 ∧ ∀ b, ¬ edge b top := by
    intro a
    induction a using founded.induction with
    | _ a ih =>
      by_cases source : ∀ b, ¬ edge b a.1
      · exact ⟨a.1, a.2, .refl, source⟩
      · obtain ⟨b, step⟩ := not_forall_not.mp source
        obtain ⟨top, isNode, path, source⟩ := ih ⟨b, inside b a.1 step⟩ (.single step)
        exact ⟨top, isNode, path.tail step, source⟩
  exact climb ⟨a, inNodes⟩

end Finite

/-! ### Chains of claims -/

/-- **Thinning out a chain**: nodes claim something, and a node that does not keep its claim lies on no
cycle and has another claim further up. Then a claim up the chain is kept somewhere up the chain. -/
theorem exists_kept_iff {next : α → α → Prop} {claims kept : α → Prop} (nodes : Finset α)
    (inside : ∀ a, claims a → a ∈ nodes) (sound : ∀ a, kept a → claims a)
    (climbs : ∀ a, claims a →
      kept a ∨ ¬ TransGen next a a ∧ ∃ b, TransGen next a b ∧ claims b) (h : α) :
    (∃ a, TransGen next h a ∧ kept a) ↔ ∃ a, TransGen next h a ∧ claims a := by
  refine ⟨fun ⟨a, path, keeps⟩ => ⟨a, path, sound a keeps⟩, fun ⟨a, path, claimed⟩ => ?_⟩
  by_contra none
  have dropped : ∀ a, TransGen next h a → claims a →
      ¬ TransGen next a a ∧ ∃ b, TransGen next a b ∧ claims b := fun a path claimed =>
    (climbs a claimed).resolve_left fun keeps => none ⟨a, path, keeps⟩
  let claimants := {a // TransGen next h a ∧ claims a}
  have finite : Finite claimants :=
    Finite.of_injective (fun a : claimants => (⟨a.1, inside a.1 a.2.2⟩ : {a // a ∈ nodes}))
      fun a b same => Subtype.ext (Subtype.mk.inj same)
  let above : claimants → claimants → Prop := fun a b => TransGen next b.1 a.1
  have isTrans : IsTrans _ above := ⟨fun _ _ _ first second => second.trans first⟩
  have isIrrefl : Std.Irrefl above := ⟨fun a => (dropped a.1 a.2.1 a.2.2).1⟩
  have founded : WellFounded above := Finite.wellFounded_of_trans_of_irrefl above
  obtain ⟨top, -, highest⟩ := founded.has_min Set.univ ⟨⟨a, path, claimed⟩, trivial⟩
  obtain ⟨b, higher, claimedB⟩ := (dropped top.1 top.2.1 top.2.2).2
  exact highest ⟨b, top.2.1.trans higher, claimedB⟩ trivial higher

/-! ### Owners -/

section WellFounded

variable (founded : WellFounded (Function.swap edge))
include founded

theorem irrefl (a : α) : ¬ TransGen edge a a := by
  intro cycle
  have inverse : TransGen (Function.swap edge) a a := transGen_swap.mpr cycle
  exact founded.transGen.irrefl.irrefl a inverse

theorem Span.owner (spans : Span edge depth h x) :
    ∃ g, (g = h ∨ Above edge depth h g) ∧ Owned edge depth g x := by
  induction h using founded.transGen.induction with
  | _ h ih =>
    by_cases owned : Owned edge depth h x
    · exact ⟨h, Or.inl rfl, owned⟩
    · have higher : ∃ g, Above edge depth h g ∧ Span edge depth g x := by
        by_contra none
        exact owned ⟨spans, fun g above spansG => none ⟨g, above, spansG⟩⟩
      obtain ⟨g, above, spansG⟩ := higher
      obtain ⟨top, place, owns⟩ := ih g (transGen_swap.mpr above.path) spansG
      refine ⟨top, Or.inr ?_, owns⟩
      rcases place with rfl | higher
      · exact above
      · exact above.trans higher

end WellFounded

/-! ### Closed sets of heads -/

variable (edge depth) in
/-- Everything a head spans is owned by a head at least as deep. -/
def Closed (heads : α → Prop) : Prop :=
  ∀ h, heads h → ∀ x, Span edge depth h x → ∃ g, heads g ∧ depth h ≤ depth g ∧ Owned edge depth g x

theorem Closed.of_rim (founded : WellFounded (Function.swap edge)) {heads : α → Prop}
    (rim : ∀ h, heads h → ∀ b, Rim edge depth h b → heads b) : Closed edge depth heads := by
  have higher : ∀ h g, Above edge depth h g → heads h → heads g := by
    intro h g above isHead
    induction above with
    | single step => exact rim h isHead _ step
    | tail _ step ih => exact rim _ ih _ step
  intro h isHead x spans
  obtain ⟨g, place, owns⟩ := spans.owner founded
  rcases place with rfl | above
  · exact ⟨g, isHead, le_rfl, owns⟩
  · exact ⟨g, higher h g above isHead, above.depth_le, owns⟩

theorem Closed.union {first second : α → Prop} (closedFirst : Closed edge depth first)
    (closedSecond : Closed edge depth second) :
    Closed edge depth fun h => first h ∨ second h := by
  intro h isHead x spans
  rcases isHead with inFirst | inSecond
  · obtain ⟨g, inFirst, deeper, owns⟩ := closedFirst h inFirst x spans
    exact ⟨g, Or.inl inFirst, deeper, owns⟩
  · obtain ⟨g, inSecond, deeper, owns⟩ := closedSecond h inSecond x spans
    exact ⟨g, Or.inr inSecond, deeper, owns⟩

section Kernel

variable {heads kept : α → Prop} {dominates : α → α → Prop} {bound : Nat}
  (closed : Closed edge depth heads) (bounded : ∀ a, heads a → depth a ≤ bound)
  (isKernel : Kernel depth dominates heads kept)
  (inside : ∀ g a, heads g → heads a → depth a < depth g → dominates g a → Span edge depth g a)

include closed bounded isKernel inside

theorem Closed.kernel (isHead : heads h) (owns : Owned edge depth h x) :
    ∃ g, kept g ∧ depth h ≤ depth g ∧ Owned edge depth g x := by
  obtain ⟨g, -, stays, deeper, owns⟩ := Kernel.climb kept bounded (fun a => Owned edge depth a x)
    (by
      intro a member dropped owns
      obtain ⟨top, stays, above, dominated⟩ := isKernel.dominated member dropped
      have isTop := isKernel.item stays
      have spans : Span edge depth top x :=
        (inside top a isTop member above dominated).trans above.le owns.1
      obtain ⟨g, isHead, deeper, owns⟩ := closed top isTop x spans
      exact ⟨g, isHead, above.trans_le deeper, owns⟩) isHead owns
  exact ⟨g, stays, deeper, owns⟩

theorem Closed.of_kernel : Closed edge depth kept := by
  intro h stays x spans
  obtain ⟨g, isHead, deeper, owns⟩ := closed h (isKernel.item stays) x spans
  obtain ⟨top, stays, deepest, owns⟩ := closed.kernel bounded isKernel inside isHead owns
  exact ⟨top, stays, deeper.trans deepest, owns⟩

end Kernel

end Subduction.Strata
