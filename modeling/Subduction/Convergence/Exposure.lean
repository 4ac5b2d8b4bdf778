/-
**Exposure: which loose commits minimization keeps, without the walk.**

A loose commit is *exposed* when it is met outside of every covered range. A commit of positive depth
is exposed when it is not covered; one of depth zero is exposed when it is a tip or has an exposed
child. This local description is what compares two trees over the same content.

* **`Thinned.exposed_iff`** — exposure in the two trees is the same.
-/

import Subduction.Core.Minimize

set_option linter.unusedSectionVars false

namespace Subduction.Sedimentree

open Relation CommitDag

variable [IterOrder CommitId]

variable {tree : Sedimentree} {metric : DepthMetric} {covered : CommitId → Prop}

def Bare (covered : CommitId → Prop) (range : Option CommitId) : Prop :=
  ∀ head, range = some head → ¬ covered head

/-- **The loose commit is met outside of every covered range.** -/
def Exposed (tree : Sedimentree) (metric : DepthMetric) (covered : CommitId → Prop) (a : CommitId) :
    Prop :=
  ∃ range, tree.Met metric a range ∧ Bare covered range

theorem bare_iff {range : Option CommitId} :
    Bare tree.Covers range ↔ ¬ tree.RangeCovered range := by
  cases range with
  | none => exact ⟨fun _ impossible => impossible, fun _ _ impossible => absurd impossible (by simp)⟩
  | some head =>
    refine ⟨fun bare => bare head rfl, fun uncovered other same => ?_⟩
    rw [← Option.some.inj same]
    exact uncovered

theorem mem_minimize_iff_exposed {a : CommitId} : a ∈ (tree.minimizeInPlace metric).commitKeys ↔
      tree.Exposed metric (tree.minimizeInPlace metric).Covers a := by
  rw [mem_minimize_commits]
  exact exists_congr fun range => and_congr_right fun _ => bare_iff.symm

theorem commit?_minimize_iff_exposed {a : CommitId} {commit : LooseCommit} :
    (tree.minimizeInPlace metric).commit? a = some commit ↔
      tree.commit? a = some commit ∧ tree.Exposed metric (tree.minimizeInPlace metric).Covers a := by
  rw [commit?_minimizeInPlace, mem_keepSets_commitHeads]
  refine and_congr_right fun _ => exists_congr fun range => and_congr_right fun _ => bare_iff.symm

theorem Exposed.mem_commitKeys {a : CommitId} (exposed : tree.Exposed metric covered a) :
    a ∈ tree.commitKeys :=
  exposed.choose_spec.1.mem_commitKeys

theorem Met.range_of_positive {a : CommitId} {range : Option CommitId} (met : tree.Met metric a range)
    (positive : 0 < metric a) : range = some a := by
  cases met with
  | tip _ => exact rangeAt_of_positive positive _
  | step _ _ => exact rangeAt_of_positive positive _

theorem exposed_positive (acyclic : ∀ a, ¬ TransGen tree.Link a a) {a : CommitId}
    (positive : 0 < metric a) :
    tree.Exposed metric covered a ↔ a ∈ tree.commitKeys ∧ ¬ covered a := by
  refine ⟨fun exposed => ⟨exposed.mem_commitKeys, ?_⟩, fun ⟨member, uncovered⟩ => ?_⟩
  · obtain ⟨range, met, bare⟩ := exposed
    exact bare a (met.range_of_positive positive)
  · obtain ⟨range, met⟩ := exists_met metric acyclic member
    refine ⟨range, met, fun head isRange => ?_⟩
    rw [met.range_of_positive positive] at isRange
    rw [← Option.some.inj isRange]
    exact uncovered

theorem exposed_flat {a : CommitId} (flat : ¬ 0 < metric a) : tree.Exposed metric covered a ↔
      tree.Tip a ∨ ∃ child, tree.Link child a ∧ tree.Exposed metric covered child := by
  refine ⟨fun ⟨range, met, bare⟩ => ?_, fun either => ?_⟩
  · cases met with
    | tip isTip => exact Or.inl isTip
    | @step child _ range met link =>
      rw [rangeAt_of_flat flat] at bare
      exact Or.inr ⟨child, link, range, met, bare⟩
  · rcases either with isTip | ⟨child, link, range, met, bare⟩
    · refine ⟨_, .tip isTip, fun head isRange => ?_⟩
      rw [rangeAt_of_flat flat] at isRange
      exact absurd isRange (by simp)
    · refine ⟨_, .step met link, ?_⟩
      rw [rangeAt_of_flat flat]
      exact bare

/-- **Induction over exposure**: positive depth, a tip, or below an exposed child. -/
theorem Exposed.rec_on {motive : CommitId → Prop} {a : CommitId}
    (exposed : tree.Exposed metric covered a)
    (positive : ∀ a, a ∈ tree.commitKeys → 0 < metric a → ¬ covered a → motive a)
    (tip : ∀ a, tree.Tip a → ¬ 0 < metric a → motive a)
    (step : ∀ a child, tree.Link child a → ¬ 0 < metric a → tree.Exposed metric covered child →
      motive child → motive a) : motive a := by
  obtain ⟨range, met, bare⟩ := exposed
  have uncovered : ∀ {b : CommitId} {range : Option CommitId}, tree.Met metric b range →
      Bare covered range → 0 < metric b → motive b := fun {b} {range} met bare isPositive =>
    positive b met.mem_commitKeys isPositive (bare b (met.range_of_positive isPositive))
  induction met with
  | @tip a isTip =>
    by_cases isPositive : 0 < metric a
    · exact uncovered (.tip isTip) bare isPositive
    · exact tip a isTip isPositive
  | @step child a range met link ih =>
    by_cases isPositive : 0 < metric a
    · exact uncovered (.step met link) bare isPositive
    · rw [rangeAt_of_flat isPositive] at bare
      exact step a child link isPositive ⟨range, met, bare⟩ (ih bare)

/-! ### A tree that lost commits -/

/-- **`tree` is `full` without some commits**, none of them exposed; a commit of depth zero that has a
child in `full` still has one. -/
structure Thinned (metric : DepthMetric) (covered : CommitId → Prop) (tree full : Sedimentree) :
    Prop where
  sub : ∀ a commit, tree.commit? a = some commit → full.commit? a = some commit
  dropped : ∀ a, full.Exposed metric covered a → a ∈ tree.commitKeys
  child : ∀ a b, a ∈ tree.commitKeys → ¬ 0 < metric a → full.Link b a → ∃ c, tree.Link c a

variable {full : Sedimentree}

variable (thin : Thinned metric covered tree full)

include thin

theorem Thinned.keys {a : CommitId} (member : a ∈ tree.commitKeys) : a ∈ full.commitKeys := by
  obtain ⟨commit, stored⟩ := mem_commitKeys.mp member
  exact mem_commitKeys.mpr ⟨commit, thin.sub a commit stored⟩

theorem Thinned.link {a b : CommitId} (link : tree.Link a b) : full.Link a b := by
  obtain ⟨commit, stored, isParent, present⟩ := link
  exact ⟨commit, thin.sub a commit stored, isParent, thin.keys present⟩

theorem Thinned.link_back {a b : CommitId}
    (link : full.Link a b) (source : a ∈ tree.commitKeys) (target : b ∈ tree.commitKeys) :
    tree.Link a b := by
  obtain ⟨commit, stored, isParent, -⟩ := link
  obtain ⟨other, storedOther⟩ := mem_commitKeys.mp source
  rw [Option.some.inj (stored.symm.trans (thin.sub a other storedOther))] at isParent
  exact ⟨other, storedOther, isParent, target⟩

theorem Thinned.acyclic (acyclic : ∀ a, ¬ TransGen full.Link a a) : ∀ a, ¬ TransGen tree.Link a a :=
  fun a cycle => acyclic a (TransGen.mono (fun _ _ link => thin.link link) _ _ cycle)

theorem Thinned.exposed_iff (acyclic : ∀ a, ¬ TransGen full.Link a a) {a : CommitId} :
    tree.Exposed metric covered a ↔ full.Exposed metric covered a := by
  refine ⟨fun exposed => exposed.rec_on ?_ ?_ ?_, fun exposed => ?_⟩
  · exact fun a member positive uncovered =>
      (exposed_positive acyclic positive).mpr ⟨thin.keys member, uncovered⟩
  · refine fun a isTip flat => (exposed_flat flat).mpr (Or.inl ⟨thin.keys isTip.1, ?_⟩)
    intro child link
    obtain ⟨other, linkOther⟩ := thin.child a child isTip.1 flat link
    exact isTip.2 other linkOther
  · exact fun a child link flat _ exposedChild =>
      (exposed_flat flat).mpr (Or.inr ⟨child, thin.link link, exposedChild⟩)
  · refine exposed.rec_on (fun a member positive uncovered => ?_) (fun a isTip flat => ?_)
      (fun a child link flat exposedChild ih => ?_)
    · refine (exposed_positive (thin.acyclic acyclic) positive).mpr ⟨thin.dropped a ?_, uncovered⟩
      exact (exposed_positive acyclic positive).mpr ⟨member, uncovered⟩
    · refine (exposed_flat flat).mpr (Or.inl ⟨thin.dropped a ?_, fun child link => ?_⟩)
      · exact (exposed_flat flat).mpr (Or.inl isTip)
      · exact isTip.2 child (thin.link link)
    · have stays := thin.dropped a ((exposed_flat flat).mpr (Or.inr ⟨child, link, exposedChild⟩))
      exact (exposed_flat flat).mpr
        (Or.inr ⟨child, thin.link_back link (thin.dropped child exposedChild) stays, ih⟩)

end Subduction.Sedimentree
