/-
**Rounds of reconciliation, one after the other.**

A round sends an item only under a head that the receiver does not advertise. So nothing is overwritten,
also where fingerprints collide, and only as many rounds can change anything as heads were missing.

Main result: `rounds_settle`.
-/

import Mathlib.Data.Nat.Count
import Subduction.Core.Reconcile

set_option linter.unusedSectionVars false

namespace Subduction

open FinMap List

/-! ### Shelves that take from each other -/

namespace Shelf

variable {V : Type} [Headed V] {shelf other later after : Shelf V}

/-- The shelf has what it had, and under other heads only what the other shelf has. -/
def Takes (shelf other later : Shelf V) : Prop :=
  ∀ id, later.map.get? id = shelf.map.get? id ∨
    shelf.map.get? id = none ∧ later.map.get? id = other.map.get? id

/-- The heads that one of the two lacks. -/
def gap (shelf other : Shelf V) : Finset CommitId := symmDiff shelf.map.keys other.map.keys

theorem takes_foldl_insert [Blake3] [Encode V] {values : List V} (fresh : ∀ v ∈ values,
      shelf.map.get? (Headed.head v) = none ∧ other.map.get? (Headed.head v) = some v) :
    Takes shelf other (values.foldl insert shelf) := by
  intro id
  cases stored : (values.foldl insert shelf).map.get? id with
  | none =>
    have absent : id ∉ shelf.map.keys := fun member =>
      get?_eq_none.mp stored (mem_keys_foldl_insert.mpr (Or.inl member))
    exact Or.inl (get?_eq_none.mpr absent).symm
  | some v =>
    have isHead := (values.foldl insert shelf).head_eq stored
    rcases get?_foldl_insert stored with old | listed
    · exact Or.inl old.symm
    · rw [← isHead]
      exact Or.inr ⟨(fresh v listed).1, (fresh v listed).2.symm⟩

theorem fresh_of_notMem {id : CommitId} {v : V} (stored : other.map.get? id = some v)
    (unknown : id ∉ shelf.map.keys) :
    shelf.map.get? (Headed.head v) = none ∧ other.map.get? (Headed.head v) = some v := by
  rw [other.head_eq stored]
  exact ⟨get?_eq_none.mpr unknown, stored⟩

variable (first : Takes shelf other later)

include first

theorem Takes.mem_later {id : CommitId} (member : id ∈ shelf.map.keys) : id ∈ later.map.keys := by
  obtain ⟨v, stored⟩ := mem_keys.mp member
  rcases first id with same | ⟨none, -⟩
  · exact mem_keys.mpr ⟨v, same.trans stored⟩
  · cases none.symm.trans stored

theorem Takes.of_mem_later {id : CommitId} (member : id ∈ later.map.keys) :
    id ∈ shelf.map.keys ∨ id ∈ other.map.keys := by
  obtain ⟨v, stored⟩ := mem_keys.mp member
  exact (first id).imp (fun same => mem_keys.mpr ⟨v, same.symm.trans stored⟩)
    fun taken => mem_keys.mpr ⟨v, taken.2.symm.trans stored⟩

theorem Takes.eq_of_gap (second : Takes other shelf after) (same : gap later after = gap shelf other) :
    later = shelf := by
  refine Shelf.ext fun id => (first id).elim (·) fun ⟨absent, taken⟩ => ?_
  rw [taken, absent]
  refine get?_eq_none.mpr fun inOther => ?_
  have missing : id ∈ gap later after :=
    same ▸ Finset.mem_symmDiff.mpr (Or.inr ⟨inOther, get?_eq_none.mp absent⟩)
  rcases Finset.mem_symmDiff.mp missing with ⟨-, notAfter⟩ | ⟨-, notLater⟩
  · exact notAfter (second.mem_later inOther)
  · obtain ⟨v, stored⟩ := mem_keys.mp inOther
    exact notLater (mem_keys.mpr ⟨v, taken.trans stored⟩)

theorem Takes.trans (second : Takes other shelf after) {last : Shelf V} (next : Takes later after last) :
    Takes shelf other last := by
  intro id
  rcases next id with same | ⟨absent, taken⟩
  · rw [same]
    exact first id
  · have none : shelf.map.get? id = none :=
      (first id).elim (fun same => same.symm.trans absent) And.left
    rcases second id with same | ⟨-, same⟩
    · exact Or.inr ⟨none, taken.trans same⟩
    · exact Or.inl (taken.trans same)

omit first

/-- Each shelf has what it had, and under other heads only what the other one had. -/
def Traded (shelf other later after : Shelf V) : Prop := Takes shelf other later ∧ Takes other shelf after

variable (traded : Traded shelf other later after)

include traded

theorem Traded.trans {last final : Shelf V} (next : Traded later after last final) :
    Traded shelf other last final :=
  ⟨traded.1.trans traded.2 next.1, traded.2.trans traded.1 next.2⟩

theorem Traded.gap_subset : gap later after ⊆ gap shelf other := by
  intro id member
  simp only [gap, Finset.mem_symmDiff] at member ⊢
  rcases member with ⟨inLater, notAfter⟩ | ⟨inAfter, notLater⟩
  · have notOther := fun inOther => notAfter (traded.2.mem_later inOther)
    exact Or.inl ⟨(traded.1.of_mem_later inLater).resolve_right notOther, notOther⟩
  · have notShelf := fun inShelf => notLater (traded.1.mem_later inShelf)
    exact Or.inr ⟨(traded.2.of_mem_later inAfter).resolve_right notShelf, notShelf⟩

theorem Traded.eq_of_card_le (least : (gap shelf other).card ≤ (gap later after).card) :
    later = shelf ∧ after = other := by
  have same := Finset.eq_of_subset_of_card_le traded.gap_subset least
  refine ⟨traded.1.eq_of_gap traded.2 same, traded.2.eq_of_gap traded.1 ?_⟩
  rw [gap, symmDiff_comm, gap, symmDiff_comm other.map.keys]
  exact same

end Shelf

/-! ### Trees that exchange -/

namespace Sedimentree

/-- **Each tree has what it had, and under other heads only what the other one had.** -/
structure Exchanged (peers later : Sedimentree × Sedimentree) : Prop where
  commits : Shelf.Traded peers.1.commits peers.2.commits later.1.commits later.2.commits
  fragments : Shelf.Traded peers.1.fragments peers.2.fragments later.1.fragments later.2.fragments

/-- The number of heads that one of the two trees lacks. -/
def missing (peers : Sedimentree × Sedimentree) : Nat :=
  (peers.1.commits.gap peers.2.commits).card + (peers.1.fragments.gap peers.2.fragments).card

variable {peers later : Sedimentree × Sedimentree}

theorem Exchanged.trans {last : Sedimentree × Sedimentree} (exchanged : Exchanged peers later)
    (next : Exchanged later last) : Exchanged peers last :=
  ⟨exchanged.1.trans next.1, exchanged.2.trans next.2⟩

theorem Exchanged.missing_lt (exchanged : Exchanged peers later) (changed : later ≠ peers) :
    missing later < missing peers := by
  have commits := Finset.card_le_card exchanged.commits.gap_subset
  have fragments := Finset.card_le_card exchanged.fragments.gap_subset
  refine lt_of_le_of_ne (Nat.add_le_add commits fragments) fun same => changed ?_
  unfold missing at same
  have sameCommits := exchanged.commits.eq_of_card_le (by omega)
  have sameFragments := exchanged.fragments.eq_of_card_le (by omega)
  exact Prod.ext (congrArg₂ Sedimentree.mk sameFragments.1 sameCommits.1)
    (congrArg₂ Sedimentree.mk sameFragments.2 sameCommits.2)

variable [SipHash24] [IterOrder CommitId] [Blake3] [Bijou64]

theorem exchanged_syncRound (requestor responder : Sedimentree) (seed : FingerprintSeed) :
    Exchanged (requestor, responder) (requestor.syncRound responder seed) := by
  unfold syncRound
  simp only [ingest_eq, fingerprintResolver_summary]
  refine ⟨⟨Shelf.takes_foldl_insert fun commit sent => ?_, Shelf.takes_foldl_insert fun commit sent => ?_⟩,
    Shelf.takes_foldl_insert fun fragment sent => ?_, Shelf.takes_foldl_insert fun fragment sent => ?_⟩
  · obtain ⟨⟨id, commit⟩, listed, rfl⟩ := mem_map.mp sent
    obtain ⟨stored, unknown, -⟩ := mem_localOnlyCommits.mp listed
    exact Shelf.fresh_of_notMem stored fun known =>
      unknown (mem_advertised.mpr ⟨id, Or.inl known, rfl⟩)
  · obtain ⟨fp, listed, found⟩ := mem_filterMap.mp sent
    obtain ⟨id, resolved, stored⟩ := Option.bind_eq_some_iff.mp found
    exact Shelf.fresh_of_notMem stored fun known => (mem_remoteOnlyCommitFingerprints.mp listed).2
      ⟨id, Or.inl known, (fingerprintTable_get? resolved).2⟩
  · obtain ⟨⟨id, fragment⟩, listed, rfl⟩ := mem_map.mp sent
    obtain ⟨stored, unknown⟩ := mem_localOnlyFragments.mp listed
    exact Shelf.fresh_of_notMem stored fun known =>
      unknown (mem_fragmentFingerprints.mpr ⟨id, known, rfl⟩)
  · obtain ⟨fp, listed, found⟩ := mem_filterMap.mp sent
    obtain ⟨id, resolved, stored⟩ := Option.bind_eq_some_iff.mp found
    exact Shelf.fresh_of_notMem stored fun known => (mem_remoteOnlyFragmentFingerprints.mp listed).2
      ⟨id, known, (fingerprintTable_get? resolved).2⟩

/-- One round, in which either tree may ask. -/
def round (peers : Sedimentree × Sedimentree) (call : Bool × FingerprintSeed) : Sedimentree × Sedimentree :=
  if call.1 then peers.1.syncRound peers.2 call.2 else (peers.2.syncRound peers.1 call.2).swap

/-- The trees after some rounds. -/
def rounds (peers : Sedimentree × Sedimentree) (calls : Nat → Bool × FingerprintSeed) :
    Nat → Sedimentree × Sedimentree
  | 0 => peers
  | n + 1 => round (rounds peers calls n) (calls n)

theorem exchanged_round (peers : Sedimentree × Sedimentree) (call : Bool × FingerprintSeed) :
    Exchanged peers (round peers call) := by
  unfold round
  split
  · exact exchanged_syncRound peers.1 peers.2 call.2
  · have exchanged := exchanged_syncRound peers.2 peers.1 call.2
    exact ⟨exchanged.1.symm, exchanged.2.symm⟩

open Classical in
/-- **Rounds lose nothing, overwrite nothing and come to an end**, for any two trees, whichever of them
asks, and whatever the seeds are. Each tree keeps its items and gets only items of the other one, under
heads it did not have; and no more rounds change anything than heads were missing. -/
theorem rounds_settle (peers : Sedimentree × Sedimentree) (calls : Nat → Bool × FingerprintSeed) (n : Nat) :
    Exchanged peers (rounds peers calls n) ∧
      Nat.count (fun i => rounds peers calls (i + 1) ≠ rounds peers calls i) n ≤ missing peers := by
  have bounded : Nat.count (fun i => rounds peers calls (i + 1) ≠ rounds peers calls i) n
      + missing (rounds peers calls n) ≤ missing peers := by
    induction n with
    | zero =>
      rw [Nat.count_zero, Nat.zero_add]
      rfl
    | succ n ih =>
      rw [Nat.count_succ]
      split
      · rename_i changed
        have less : missing (rounds peers calls (n + 1)) < missing (rounds peers calls n) :=
          (exchanged_round _ _).missing_lt changed
        omega
      · rename_i unchanged
        rw [not_ne_iff.mp unchanged]
        exact ih
  refine ⟨?_, by omega⟩
  clear bounded
  induction n with
  | zero => exact ⟨⟨fun _ => Or.inl rfl, fun _ => Or.inl rfl⟩, fun _ => Or.inl rfl, fun _ => Or.inl rfl⟩
  | succ n ih => exact ih.trans (exchanged_round _ _)

end Sedimentree

/-! ### The difference of two trees -/

section Difference

variable [IterOrder CommitId] [Blake3] [Bijou64]

namespace Shelf

variable {V : Type} [Headed V]

/-- The items of the other shelf under heads that this one does not have. -/
def lacking (shelf other : Shelf V) : List V :=
  (IterOrder.list (other.map.keys \ shelf.map.keys)).filterMap other.map.get?

/-- The shelf with what it lacks. -/
def patch [Encode V] (shelf other : Shelf V) : Shelf V := (shelf.lacking other).foldl insert shelf

variable [Encode V] (shelf other : Shelf V)

theorem get?_patch (id : CommitId) :
    (shelf.patch other).map.get? id = (shelf.map.get? id).or (other.map.get? id) := by
  have mem_lacking {v : V} : v ∈ shelf.lacking other ↔
      ∃ head, (head ∈ other.map.keys ∧ head ∉ shelf.map.keys) ∧ other.map.get? head = some v := by
    simp only [lacking, mem_filterMap, IterOrder.mem_list, Finset.mem_sdiff]
  have takes : Takes shelf other (shelf.patch other) := takes_foldl_insert fun v listed => by
    obtain ⟨head, ⟨-, unknown⟩, stored⟩ := mem_lacking.mp listed
    exact fresh_of_notMem stored unknown
  rcases takes id with same | ⟨absent, taken⟩
  · rw [same]
    cases old : shelf.map.get? id with
    | some v => rfl
    | none =>
      refine (get?_eq_none.mpr fun isKey => ?_).symm
      obtain ⟨v, new⟩ := mem_keys.mp isKey
      have listed : v ∈ shelf.lacking other := mem_lacking.mpr ⟨id, ⟨isKey, get?_eq_none.mp old⟩, new⟩
      have found : id ∈ (shelf.patch other).map.keys :=
        mem_keys_foldl_insert.mpr (Or.inr ⟨v, listed, other.head_eq new⟩)
      exact get?_eq_none.mp (same.trans old) found
  · rw [taken, absent, Option.none_or]

theorem gap_patch : gap (shelf.patch other) (other.patch shelf) = ∅ := by
  refine Finset.symmDiff_eq_empty.mpr (Finset.ext fun id => ?_)
  rw [← not_iff_not, ← get?_eq_none, ← get?_eq_none, get?_patch, get?_patch, Option.or_eq_none_iff,
    Option.or_eq_none_iff, and_comm]

theorem patch_comm_iff : shelf.patch other = other.patch shelf ↔
    ∀ id, ∀ x ∈ shelf.map.get? id, ∀ y ∈ other.map.get? id, x = y := by
  have agree {first second : Option V} : first.or second = second.or first ↔
      ∀ x ∈ first, ∀ y ∈ second, x = y := by
    cases first <;> cases second <;> simp
  refine ⟨fun same id => ?_, fun same => Shelf.ext fun id => ?_⟩
  · rw [← agree, ← get?_patch, ← get?_patch, same]
  · rw [get?_patch, get?_patch]
    exact agree.mpr (same id)

end Shelf

namespace Sedimentree

/-- `Diff`. -/
structure Diff where
  leftMissingFragments : List Fragment
  leftMissingCommits : List LooseCommit
  rightMissingFragments : List Fragment
  rightMissingCommits : List LooseCommit

/-- `Sedimentree::diff`. -/
def diff (tree other : Sedimentree) : Diff where
  leftMissingFragments := tree.fragments.lacking other.fragments
  leftMissingCommits := tree.commits.lacking other.commits
  rightMissingFragments := other.fragments.lacking tree.fragments
  rightMissingCommits := other.commits.lacking tree.commits

/-- **The difference is all that is missing**: when each tree is given what it lacks, both have the same
heads. They are equal exactly when they had the same item under every head of both. -/
theorem diff_complete (tree other : Sedimentree) :
    let left := tree.ingest (tree.diff other).leftMissingFragments (tree.diff other).leftMissingCommits
    let right := other.ingest (tree.diff other).rightMissingFragments (tree.diff other).rightMissingCommits
    missing (left, right) = 0 ∧ (left = right ↔
      (∀ id, ∀ x ∈ tree.fragment? id, ∀ y ∈ other.fragment? id, x = y) ∧
        ∀ id, ∀ x ∈ tree.commit? id, ∀ y ∈ other.commit? id, x = y) := by
  intro left right
  have : SipHash24 := numberHash
  have isLeft : left = ⟨tree.fragments.patch other.fragments, tree.commits.patch other.commits⟩ := ingest_eq ..
  have isRight : right = ⟨other.fragments.patch tree.fragments, other.commits.patch tree.commits⟩ :=
    ingest_eq ..
  rw [isLeft, isRight]
  refine ⟨?_, ?_⟩
  · unfold missing
    rw [Shelf.gap_patch, Shelf.gap_patch]
    rfl
  · rw [Sedimentree.mk.injEq, Shelf.patch_comm_iff, Shelf.patch_comm_iff]
    rfl

end Sedimentree

end Difference

end Subduction
