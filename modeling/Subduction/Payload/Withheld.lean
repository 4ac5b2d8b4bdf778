/-
**The commits a responder withholds, and whether the requestor holds them.**

The summary of a tree advertises the boundary commits of its fragments together with its loose
commits and the heads of its fragments, so a responder never sends a boundary commit. The blob of a
fragment does not contain its boundary commits.

Main result: `withheld_held_iff_boundaries_held`.
-/

import Subduction.Core.Reconcile

namespace Subduction

open Relation Sedimentree List

section Withholding

variable [IterOrder CommitId] [SipHash24]

/-- **The members of a fragment**: the commits reached from its head by parent links, without
passing through or ending at a boundary commit. -/
def InFragment (edge : CommitId → CommitId → Prop) (fragment : Fragment) (c : CommitId) : Prop :=
  ReflTransGen (fun a b => edge a b ∧ b ∉ fragment.boundary) fragment.head c

/-- The tree holds the payload of the commit. -/
def HoldsCommit (edge : CommitId → CommitId → Prop) (tree : Sedimentree) (c : CommitId) : Prop :=
  c ∈ tree.commitKeys ∨ ∃ h fragment, tree.fragment? h = some fragment ∧ InFragment edge fragment c

/-- The loose commits of the tree have the parents of the commit graph. -/
def OverGraph (edge : CommitId → CommitId → Prop) (tree : Sedimentree) : Prop :=
  ∀ id commit, tree.commit? id = some commit → ∀ b, b ∈ commit.parents ↔ edge id b

/-- The identifiers whose fingerprints are compared. -/
def Involved (responder requestor : Sedimentree) : Set CommitId :=
  {id | id ∈ responder.commitKeys ∨ id ∈ responder.fragmentKeys ∨ requestor.Advertised id}

variable {edge : CommitId → CommitId → Prop} {responder requestor : Sedimentree}
  {seed : FingerprintSeed}

theorem advertised_of_fingerprint
    (separated : Set.InjOn (Fingerprint.new seed) (Involved responder requestor)) {c : CommitId}
    (member : c ∈ responder.commitKeys)
    (known : Fingerprint.new seed c ∈ (requestor.fingerprintSummarize seed).commitFingerprints) :
    requestor.Advertised c := by
  obtain ⟨id, advertised, same⟩ := mem_advertised.mp known
  rw [← separated (Or.inr (Or.inr advertised)) (Or.inl member) same]
  exact advertised

theorem fragment_of_root
    (separated : Set.InjOn (Fingerprint.new seed) (Involved responder requestor)) {root : CommitId}
    (isRoot : root ∈ responder.fragmentRoots (requestor.fingerprintSummarize seed)) :
    ∃ fragment, requestor.fragment? root = some fragment := by
  obtain ⟨isLocal, known⟩ := mem_fragmentRoots.mp isRoot
  obtain ⟨id, isHead, same⟩ := mem_fragmentFingerprints.mp known
  have involved : root ∈ Involved responder requestor := isLocal.imp_right Or.inl
  rw [separated (Or.inr (Or.inr (Or.inr (Or.inl isHead)))) involved same] at isHead
  exact mem_fragmentKeys.mp isHead

section

variable (overGraph : OverGraph edge responder) (separated : Set.InjOn (Fingerprint.new seed) (Involved responder requestor))

include overGraph separated

theorem covered_walk {root c : CommitId}
    (isRoot : root ∈ responder.fragmentRoots (requestor.fingerprintSummarize seed))
    (path : ReflTransGen (responder.CoverageStep (requestor.fingerprintSummarize seed)) root c) :
    requestor.Advertised c ∨
      ∃ h fragment, requestor.fragment? h = some fragment ∧ InFragment edge fragment c := by
  have step : ∀ {h a b fragment}, requestor.fragment? h = some fragment →
      InFragment edge fragment a → edge a b → requestor.Advertised b ∨
        ∃ h fragment, requestor.fragment? h = some fragment ∧ InFragment edge fragment b := by
    intro h a b fragment stored inside edgeTo
    by_cases atBoundary : b ∈ fragment.boundary
    · exact Or.inl (Or.inr (Or.inr ⟨h, fragment, stored, atBoundary⟩))
    · exact Or.inr ⟨h, fragment, stored, inside.tail ⟨edgeTo, atBoundary⟩⟩
  have atRoot : ∀ r ∈ responder.fragmentRoots (requestor.fingerprintSummarize seed),
      ∃ fragment, requestor.fragment? r = some fragment ∧ InFragment edge fragment r := by
    intro r isRoot
    obtain ⟨fragment, stored⟩ := fragment_of_root separated isRoot
    refine ⟨fragment, stored, ?_⟩
    unfold InFragment
    rw [head_of_fragment? stored]
  induction path with
  | refl =>
    obtain ⟨fragment, stored, inside⟩ := atRoot root isRoot
    exact Or.inr ⟨root, fragment, stored, inside⟩
  | @tail a b _ next ih =>
    obtain ⟨passed, commit, stored, isParent⟩ := next
    have edgeTo := (overGraph a commit stored b).mp isParent
    by_cases isRoot : a ∈ responder.fragmentRoots (requestor.fingerprintSummarize seed)
    · obtain ⟨fragment, found, inside⟩ := atRoot a isRoot
      exact step found inside edgeTo
    · have notAdvertised : ¬ requestor.Advertised a := fun advertised =>
        passed ⟨isRoot, mem_advertised.mpr ⟨a, advertised, rfl⟩⟩
      obtain ⟨h, fragment, found, inside⟩ := ih.resolve_left notAdvertised
      exact step found inside edgeTo

theorem advertised_or_inFragment_of_withheld {c : CommitId}
    {commit : LooseCommit} (stored : responder.commit? c = some commit)
    (withheld : (c, commit) ∉ (responder.diffRemoteFingerprints
      (requestor.fingerprintSummarize seed)).localOnlyCommits) : requestor.Advertised c ∨
      ∃ h fragment, requestor.fragment? h = some fragment ∧ InFragment edge fragment c := by
  rw [mem_localOnlyCommits] at withheld
  by_cases known : Fingerprint.new seed c ∈ (requestor.fingerprintSummarize seed).commitFingerprints
  · exact Or.inl (advertised_of_fingerprint separated (mem_commitKeys.mpr ⟨commit, stored⟩) known)
  · have covered : c ∈ responder.coveredByRemote (requestor.fingerprintSummarize seed) := by
      by_contra clear
      exact withheld ⟨stored, known, clear⟩
    obtain ⟨root, isRoot, path⟩ := mem_coveredByRemote.mp covered
    exact covered_walk overGraph separated isRoot path

end

/-- **What is withheld is held by the requestor exactly when its boundary commits are**: those of
them that the responder has as loose commits. -/
theorem withheld_held_iff_boundaries_held (edge : CommitId → CommitId → Prop)
    (responder requestor : Sedimentree) (overGraph : OverGraph edge responder) (seed : FingerprintSeed)
    (separated : Set.InjOn (Fingerprint.new seed) (Involved responder requestor)) :
    (∀ c commit, responder.commit? c = some commit → (c, commit) ∉ (responder.diffRemoteFingerprints
          (requestor.fingerprintSummarize seed)).localOnlyCommits →
        HoldsCommit edge requestor c) ↔
      ∀ c ∈ responder.commitKeys, ∀ h fragment, requestor.fragment? h = some fragment →
        c ∈ fragment.boundary → HoldsCommit edge requestor c := by
  refine ⟨fun held c member h fragment stored atBoundary => ?_, fun held c commit stored withheld => ?_⟩
  · obtain ⟨commit, storedC⟩ := Sedimentree.mem_commitKeys.mp member
    refine held c commit storedC fun sent => ?_
    obtain ⟨-, unknown, -⟩ := Sedimentree.mem_localOnlyCommits.mp sent
    have advertised : requestor.Advertised c := Or.inr (Or.inr ⟨h, fragment, stored, atBoundary⟩)
    exact unknown (Sedimentree.mem_advertised.mpr ⟨c, advertised, rfl⟩)
  · rcases advertised_or_inFragment_of_withheld overGraph separated stored withheld with advertised | inside
    · rcases advertised with loose | isHead | ⟨h, fragment, found, atBoundary⟩
      · exact Or.inl loose
      · obtain ⟨fragment, found⟩ := Sedimentree.mem_fragmentKeys.mp isHead
        refine Or.inr ⟨c, fragment, found, ?_⟩
        unfold InFragment
        rw [Sedimentree.head_of_fragment? found]
      · exact held c (Sedimentree.mem_commitKeys.mpr ⟨commit, stored⟩) h fragment found atBoundary
    · exact Or.inr inside

end Withholding

/-! ### A commit that is never sent -/

def pairEdge (a b : CommitId) : Prop := a = .numbered 2 ∧ b = .numbered 1

/-- The responder has the commit 1. -/
def rootHolder [Blake3] [Bijou64] : Sedimentree :=
  Sedimentree.new [] [⟨⟨0⟩, .numbered 1, ∅, ⟨⟨0⟩, 0⟩⟩]

/-- The requestor has the fragment of the commit 2, with the commit 1 as its boundary. -/
def tipHolder [Blake3] [Bijou64] : Sedimentree :=
  Sedimentree.new [Fragment.new ⟨0⟩ (.numbered 2) {.numbered 1} ∅ ⟨⟨0⟩, 0⟩] []

section

variable [Blake3] [Bijou64]

theorem overGraph_rootHolder : OverGraph pairEdge rootHolder := by
  intro id commit stored b
  have isHead := head_of_commit? stored
  have listed := (Shelf.holds_ofList
    [(⟨⟨0⟩, .numbered 1, ∅, ⟨⟨0⟩, 0⟩⟩ : LooseCommit)]).candidate stored
  rw [mem_singleton] at listed
  subst listed
  rw [← isHead]
  refine ⟨fun isParent => absurd isParent (Finset.notMem_empty b), fun step => ?_⟩
  exact absurd step.1 (by decide)

theorem fragment?_tipHolder {h : CommitId} {fragment : Fragment}
    (stored : tipHolder.fragment? h = some fragment) :
    fragment = Fragment.new ⟨0⟩ (.numbered 2) {.numbered 1} ∅ ⟨⟨0⟩, 0⟩ :=
  mem_singleton.mp ((Shelf.holds_ofList _).candidate stored)

theorem commitKeys_rootHolder {id : CommitId} : id ∈ rootHolder.commitKeys ↔ id = .numbered 1 := by
  refine (Shelf.holds_ofList _).mem_keys.trans ⟨fun ⟨commit, listed, isHead⟩ => ?_, fun same => ?_⟩
  · rw [← isHead, mem_singleton.mp listed]
    rfl
  · exact ⟨_, mem_singleton_self _, same.symm⟩

theorem involved_numbers : Involved rootHolder tipHolder ⊆ {.numbered 1, .numbered 2} := by
  have emptyShelf : ∀ {V : Type} [Headed V] [Encode V] {id : CommitId},
      id ∉ (Shelf.ofList ([] : List V)).map.keys := by
    intro V _ _ id member
    obtain ⟨v, listed, -⟩ := (Shelf.holds_ofList ([] : List V)).mem_keys.mp member
    exact absurd listed not_mem_nil
  intro id involved
  rcases involved with loose | isFragment | loose | isFragment | ⟨h, fragment, stored, atBoundary⟩
  · exact Or.inl (commitKeys_rootHolder.mp loose)
  · exact absurd isFragment emptyShelf
  · exact absurd loose emptyShelf
  · obtain ⟨fragment, stored⟩ := mem_fragmentKeys.mp isFragment
    rw [← head_of_fragment? stored, fragment?_tipHolder stored]
    exact Or.inr rfl
  · rw [fragment?_tipHolder stored] at atBoundary
    exact Or.inl (Finset.mem_singleton.mp atBoundary)

theorem separated_numbers : letI : SipHash24 := numberHash
    Set.InjOn (Fingerprint.new ⟨0, 0⟩) (Involved rootHolder tipHolder) := by
  let _ : SipHash24 := numberHash
  have all : ∀ a ∈ ({.numbered 1, .numbered 2} : Finset CommitId),
      ∀ b ∈ ({.numbered 1, .numbered 2} : Finset CommitId),
        Fingerprint.new ⟨0, 0⟩ a = Fingerprint.new ⟨0, 0⟩ b → a = b := by
    decide +kernel
  intro a memA b memB same
  exact all a (by simpa using involved_numbers memA) b (by simpa using involved_numbers memB) same

theorem tipHolder_not_holds : ¬ HoldsCommit pairEdge tipHolder (.numbered 1) := by
  intro holds
  rcases holds with loose | ⟨h, fragment, stored, inside⟩
  · obtain ⟨commit, listed, -⟩ := (Shelf.holds_ofList ([] : List LooseCommit)).mem_keys.mp loose
    exact absurd listed not_mem_nil
  · rw [fragment?_tipHolder stored] at inside
    rcases ReflTransGen.cases_tail inside with same | ⟨a, -, -, outside⟩
    · exact absurd same (by decide)
    · exact outside (Finset.mem_singleton_self _)

end

/-- **A boundary commit of the requestor is withheld**, and the requestor does not hold it. -/
theorem boundary_commit_withheld : letI : IterOrder CommitId := IterOrder.ascending CommitId
    letI : Blake3 := ⟨fun _ => 0⟩
    letI : Bijou64 := ⟨fun _ => []⟩
    letI : SipHash24 := numberHash
    OverGraph pairEdge rootHolder ∧
      Set.InjOn (Fingerprint.new ⟨0, 0⟩) (Involved rootHolder tipHolder) ∧
      ∃ c commit, rootHolder.commit? c = some commit ∧
        (c, commit) ∉ (rootHolder.diffRemoteFingerprints
          (tipHolder.fingerprintSummarize ⟨0, 0⟩)).localOnlyCommits ∧
        ¬ HoldsCommit pairEdge tipHolder c := by
  let _ : IterOrder CommitId := IterOrder.ascending CommitId
  let _ : Blake3 := ⟨fun _ => 0⟩
  let _ : Bijou64 := ⟨fun _ => []⟩
  let _ : SipHash24 := numberHash
  obtain ⟨commit, stored⟩ := Sedimentree.mem_commitKeys.mp (commitKeys_rootHolder.mpr rfl)
  refine ⟨overGraph_rootHolder, separated_numbers, .numbered 1, commit, stored, fun sent => ?_,
    tipHolder_not_holds⟩
  obtain ⟨-, unknown, -⟩ := Sedimentree.mem_localOnlyCommits.mp sent
  have isHead : tipHolder.fragment? (.numbered 2) =
      some (Fragment.new ⟨0⟩ (.numbered 2) {.numbered 1} ∅ ⟨⟨0⟩, 0⟩) :=
    Shelf.get?_ofList (List.mem_singleton_self _) fun _ listed _ => List.mem_singleton.mp listed
  exact unknown (Sedimentree.mem_advertised.mpr ⟨.numbered 1,
    Or.inr (Or.inr ⟨_, _, isHead, Finset.mem_singleton_self _⟩), rfl⟩)

theorem withheld_held_iff_boundaries_held_pair :
    letI : IterOrder CommitId := IterOrder.ascending CommitId
    letI : Blake3 := ⟨fun _ => 0⟩
    letI : Bijou64 := ⟨fun _ => []⟩
    letI : SipHash24 := numberHash
    OverGraph pairEdge rootHolder ∧
      Set.InjOn (Fingerprint.new ⟨0, 0⟩) (Involved rootHolder tipHolder) ∧
      ((∀ c commit, rootHolder.commit? c = some commit →
          (c, commit) ∉ (rootHolder.diffRemoteFingerprints
            (tipHolder.fingerprintSummarize ⟨0, 0⟩)).localOnlyCommits →
          HoldsCommit pairEdge tipHolder c) ↔
        ∀ c ∈ rootHolder.commitKeys, ∀ h fragment, tipHolder.fragment? h = some fragment →
          c ∈ fragment.boundary → HoldsCommit pairEdge tipHolder c) := by
  let _ : IterOrder CommitId := IterOrder.ascending CommitId
  let _ : Blake3 := ⟨fun _ => 0⟩
  let _ : Bijou64 := ⟨fun _ => []⟩
  let _ : SipHash24 := numberHash
  exact ⟨overGraph_rootHolder, separated_numbers, withheld_held_iff_boundaries_held pairEdge rootHolder
    tipHolder overGraph_rootHolder ⟨0, 0⟩ separated_numbers⟩

end Subduction
