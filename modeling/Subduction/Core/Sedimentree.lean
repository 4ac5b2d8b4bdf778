/-
**The sedimentree: fragments and loose commits keyed by their heads.**

A `Shelf` is a map of items under their own heads; a `Sedimentree` has one for fragments and one for
loose commits. All insertions break a collision of heads in favour of the smaller digest.

The invariant is `Shelf.Holds`.
-/

import Subduction.Core.CommitDag
import Subduction.Lib.Sweep

namespace Subduction

open Relation List FinMap

class Headed (V : Type) where
  head : V → CommitId

instance : Headed Fragment := ⟨Fragment.head⟩

instance : Headed LooseCommit := ⟨LooseCommit.head⟩

/-! ### Shelves -/

/-- A map of items, each under its own head. -/
structure Shelf (V : Type) [Headed V] where
  map : FinMap CommitId V
  head_eq : ∀ {id : CommitId} {value : V}, map.get? id = some value → Headed.head value = id

/-- `insert_or_tiebreak`: on a collision the value with the smaller digest stays. -/
def insertOrTiebreak [Blake3] {V : Type} [Encode V] (map : FinMap CommitId V) (key : CommitId)
    (value : V) : FinMap CommitId V :=
  map.insertLeast Digest.hash key value

namespace Shelf

variable {V : Type} [Headed V]

@[ext] theorem ext {first second : Shelf V}
    (same : ∀ id, first.map.get? id = second.map.get? id) : first = second := by
  obtain ⟨firstMap, _⟩ := first
  obtain ⟨secondMap, _⟩ := second
  have mapEq : firstMap = secondMap := FinMap.ext same
  subst mapEq
  rfl

instance : EmptyCollection (Shelf V) := ⟨⟨∅, by simp⟩⟩

variable {id : CommitId} {shelf : Shelf V} {v : V} {candidates : V → Prop} {values : List V}

theorem insert_head_eq (shelf : Shelf V) {key : CommitId} {value : V}
    (isHead : Headed.head value = key) {found : V}
    (stored : (shelf.map.insert key value).get? id = some found) : Headed.head found = id := by
  rcases of_get?_insert stored with ⟨rfl, rfl⟩ | ⟨-, older⟩
  · exact isHead
  · exact shelf.head_eq older

def retain (shelf : Shelf V) (keep : CommitId → Bool) : Shelf V where
  map := shelf.map.retain fun id _ => keep id
  head_eq stored := shelf.head_eq (FinMap.get?_retain_eq_some.mp stored).1

theorem get?_retain {keep : CommitId → Bool} {value : V} :
    (shelf.retain keep).map.get? id = some value ↔
      shelf.map.get? id = some value ∧ keep id = true := FinMap.get?_retain_eq_some

theorem mem_values [IterOrder CommitId] :
    v ∈ shelf.map.values ↔ shelf.map.get? (Headed.head v) = some v := by
  rw [FinMap.mem_values]
  refine ⟨fun ⟨id, stored⟩ => ?_, fun stored => ⟨_, stored⟩⟩
  rw [shelf.head_eq stored]
  exact stored

theorem map_head_values [IterOrder CommitId] (shelf : Shelf V) :
    shelf.map.values.map Headed.head = IterOrder.list shelf.map.keys := by
  unfold FinMap.values FinMap.entries
  rw [List.map_map, List.map_filterMap]
  refine Eq.trans (List.filterMap_congr fun key member => ?_) List.filterMap_some
  obtain ⟨value, stored⟩ := mem_keys.mp (IterOrder.mem_list.mp member)
  rw [stored, Option.map_some, Option.map_some]
  exact congrArg some (shelf.head_eq stored)

theorem nodup_map_head_values [IterOrder CommitId] (shelf : Shelf V) :
    (shelf.map.values.map Headed.head).Nodup := by
  rw [map_head_values]
  exact IterOrder.nodup_list _

variable [Blake3] [Encode V]

theorem insertOrTiebreak_head_eq (shelf : Shelf V) {key : CommitId} {value : V}
    (isHead : Headed.head value = key) {found : V}
    (stored : (insertOrTiebreak shelf.map key value).get? id = some found) :
    Headed.head found = id := by
  unfold insertOrTiebreak FinMap.insertLeast at stored
  cases old : shelf.map.get? key with
  | none =>
    rw [old] at stored
    exact shelf.insert_head_eq isHead stored
  | some old' =>
    rw [old] at stored
    by_cases smaller : Digest.hash value < Digest.hash old'
    · simp only [if_pos smaller] at stored
      exact shelf.insert_head_eq isHead stored
    · simp only [if_neg smaller] at stored
      exact shelf.head_eq stored

def insert (shelf : Shelf V) (value : V) : Shelf V where
  map := insertOrTiebreak shelf.map (Headed.head value) value
  head_eq := shelf.insertOrTiebreak_head_eq rfl

def ofList (values : List V) : Shelf V := values.foldl insert ∅

/-- Add an item, and tell whether its head was not present. -/
def add (shelf : Shelf V) (value : V) : Shelf V × Bool :=
  match shelf.map.get? (Headed.head value) with
  | none => (⟨shelf.map.insert (Headed.head value) value, shelf.insert_head_eq rfl⟩, true)
  | some old =>
    (if Digest.hash value < Digest.hash old then
        ⟨shelf.map.insert (Headed.head value) value, shelf.insert_head_eq rfl⟩
      else shelf, false)

theorem add_fst (shelf : Shelf V) (value : V) : (shelf.add value).1 = shelf.insert value := by
  refine Shelf.ext fun id => ?_
  unfold add insert insertOrTiebreak FinMap.insertLeast
  split
  · rename_i stored
    simp only [stored]
  · rename_i old stored
    simp only [stored]
    by_cases smaller : Digest.hash value < Digest.hash old
    · simp only [if_pos smaller]
    · simp only [if_neg smaller]

/-- Insert the entries of another shelf; the key of an entry is its head. -/
def merge [IterOrder CommitId] (shelf other : Shelf V) : Shelf V :=
  other.map.values.foldl insert shelf

/-! ### What a shelf holds -/

/-- **Every head holds the candidate of least digest.** -/
def Holds (shelf : Shelf V) (candidates : V → Prop) : Prop :=
  ∀ id, FinMap.Holds Digest.hash (fun v => candidates v ∧ Headed.head v = id) (shelf.map.get? id)

theorem holds_empty : (∅ : Shelf V).Holds fun _ => False :=
  fun _ _ candidate => candidate.1

theorem holds_self (shelf : Shelf V) :
    shelf.Holds fun v => shelf.map.get? (Headed.head v) = some v := by
  intro id
  cases stored : shelf.map.get? id with
  | none =>
    intro v candidate
    obtain ⟨found, rfl⟩ := candidate
    exact absurd (stored.symm.trans found) (by simp)
  | some v =>
    have isHead := shelf.head_eq stored
    have underHead : shelf.map.get? (Headed.head v) = some v := isHead ▸ stored
    refine ⟨⟨underHead, isHead⟩, fun w candidate => ?_⟩
    obtain ⟨found, rfl⟩ := candidate
    rw [Option.some.inj (stored.symm.trans found)]

theorem Holds.congr {others : V → Prop}
    (same : ∀ v, candidates v ↔ others v) (holds : shelf.Holds candidates) : shelf.Holds others :=
  fun id => (holds id).congr fun v => and_congr_left fun _ => same v

theorem Holds.insert (holds : shelf.Holds candidates)
    (value : V) : (shelf.insert value).Holds fun v => candidates v ∨ v = value := by
  intro id
  refine (holds_insertLeast holds (Headed.head value) value id).congr fun v => ?_
  refine ⟨fun either => ?_, fun both => ?_⟩
  · rcases either with ⟨old, isHead⟩ | ⟨rfl, rfl⟩
    · exact ⟨Or.inl old, isHead⟩
    · exact ⟨Or.inr rfl, rfl⟩
  · obtain ⟨old | rfl, rfl⟩ := both
    · exact Or.inl ⟨old, rfl⟩
    · exact Or.inr ⟨rfl, rfl⟩

theorem Holds.foldl (values : List V) :
    ∀ {shelf : Shelf V} {candidates : V → Prop}, shelf.Holds candidates →
      (values.foldl Shelf.insert shelf).Holds fun v => candidates v ∨ v ∈ values := by
  induction values with
  | nil =>
    intro shelf candidates holds
    exact holds.congr fun v => by simp
  | cons value values ih =>
    intro shelf candidates holds
    exact (ih (holds.insert value)).congr fun v => by rw [mem_cons, or_assoc]

theorem holds_ofList (values : List V) : (ofList values).Holds (· ∈ values) :=
  (Holds.foldl values holds_empty).congr fun _ => or_iff_right id

theorem Holds.merge [IterOrder CommitId] {other : Shelf V} {others : V → Prop}
    (holds : shelf.Holds candidates) (holdsOther : other.Holds others) :
    (shelf.merge other).Holds fun v => candidates v ∨ others v := by
  intro id
  have merged := Holds.foldl other.map.values holds id
  unfold Shelf.merge
  cases stored : ((other.map.values.foldl Shelf.insert shelf).map.get? id) with
  | none =>
    rw [stored] at merged
    intro v candidate
    obtain ⟨old | new, isHead⟩ := candidate
    · exact merged v ⟨Or.inl old, isHead⟩
    · have atOther := holdsOther id
      cases kept : other.map.get? id with
      | none =>
        rw [kept] at atOther
        exact atOther v ⟨new, isHead⟩
      | some w =>
        have headW := other.head_eq kept
        exact merged w ⟨Or.inr (mem_values.mpr (headW ▸ kept)), headW⟩
  | some v =>
    rw [stored] at merged
    obtain ⟨⟨isCandidate, isHead⟩, smallest⟩ := merged
    refine ⟨⟨?_, isHead⟩, fun w candidate => ?_⟩
    · refine isCandidate.imp_right fun listed => ?_
      have atOther := holdsOther id
      rw [← isHead, mem_values.mp listed] at atOther
      exact atOther.candidate.1
    · obtain ⟨old | new, headW⟩ := candidate
      · exact smallest w ⟨Or.inl old, headW⟩
      · have atOther := holdsOther id
        cases kept : other.map.get? id with
        | none =>
          rw [kept] at atOther
          exact (atOther w ⟨new, headW⟩).elim
        | some u =>
          rw [kept] at atOther
          have headU := other.head_eq kept
          exact (smallest u ⟨Or.inr (mem_values.mpr (headU ▸ kept)), headU⟩).trans
            (atOther.least w ⟨new, headW⟩)

theorem Holds.candidate (holds : shelf.Holds candidates)
    (stored : shelf.map.get? id = some v) : candidates v := by
  have here := holds id
  rw [stored] at here
  exact here.candidate.1

theorem Holds.mem_keys (holds : shelf.Holds candidates)
    : id ∈ shelf.map.keys ↔ ∃ v, candidates v ∧ Headed.head v = id := by
  have here := holds id
  cases stored : shelf.map.get? id with
  | none =>
    rw [stored] at here
    exact ⟨fun member => absurd member (FinMap.get?_eq_none.mp stored),
      fun ⟨v, candidate⟩ => (here v candidate).elim⟩
  | some v =>
    rw [stored] at here
    exact ⟨fun _ => ⟨v, here.candidate⟩, fun _ => mem_keys_of_get? stored⟩

theorem get?_foldl_insert (stored : (values.foldl insert shelf).map.get? id = some v) :
    shelf.map.get? id = some v ∨ v ∈ values := by
  have isHead := (values.foldl insert shelf).head_eq stored
  refine ((Holds.foldl values shelf.holds_self).candidate stored).imp_left fun old => ?_
  exact isHead ▸ old

theorem get?_add {value : V} (stored : (shelf.add value).1.map.get? id = some v) :
    shelf.map.get? id = some v ∨ v = value := by
  rw [add_fst] at stored
  exact (get?_foldl_insert (v := v) (show ([value].foldl insert shelf).map.get? id = some v from
    stored)).imp_right mem_singleton.mp

theorem mem_of_get?_ofList (stored : (ofList values).map.get? id = some v) : v ∈ values :=
  (get?_foldl_insert stored).resolve_left fun impossible => nomatch impossible

theorem mem_keys_foldl_insert : id ∈ (values.foldl insert shelf).map.keys ↔
      id ∈ shelf.map.keys ∨ ∃ v ∈ values, Headed.head v = id := by
  rw [(Holds.foldl values shelf.holds_self).mem_keys, FinMap.mem_keys]
  refine ⟨fun ⟨v, held, isHead⟩ => ?_, fun either => ?_⟩
  · exact held.imp (fun old => ⟨v, isHead ▸ old⟩) fun listed => ⟨v, listed, isHead⟩
  · rcases either with ⟨v, stored⟩ | ⟨v, listed, isHead⟩
    · have isHead := shelf.head_eq stored
      exact ⟨v, Or.inl (isHead.symm ▸ stored), isHead⟩
    · exact ⟨v, Or.inr listed, isHead⟩

theorem isSome_get?_ofList :
    ((ofList values).map.get? id).isSome = true ↔ ∃ v ∈ values, Headed.head v = id := by
  rw [Option.isSome_iff_exists, ← FinMap.mem_keys]
  exact mem_keys_foldl_insert.trans (or_iff_right (Finset.notMem_empty id))

theorem Holds.unique {first second : Shelf V}
    (separated : Set.InjOn (Digest.hash (α := V)) {v | candidates v}) (one : first.Holds candidates)
    (two : second.Holds candidates) : first = second :=
  Shelf.ext fun id => (one id).unique (separated.mono fun _ candidate => candidate.1) (two id)

theorem Holds.get?_of_alone (holds : shelf.Holds candidates) (candidate : candidates v)
    (alone : ∀ w, candidates w → Headed.head w = Headed.head v → w = v) :
    shelf.map.get? (Headed.head v) = some v := by
  have here := holds (Headed.head v)
  cases stored : shelf.map.get? (Headed.head v) with
  | none =>
    rw [stored] at here
    exact (here v ⟨candidate, rfl⟩).elim
  | some w =>
    rw [stored] at here
    rw [alone w here.candidate.1 here.candidate.2]

theorem get?_ofList (listed : v ∈ values)
    (alone : ∀ w ∈ values, Headed.head w = Headed.head v → w = v) :
    (ofList values).map.get? (Headed.head v) = some v :=
  (holds_ofList values).get?_of_alone listed alone

/-- **Insertions without a second value for a head** add the values and change nothing else. -/
theorem get?_foldl_insert_iff (agree : ∀ v ∈ values, ∀ w, shelf.map.get? (Headed.head v) = some w ∨
      w ∈ values ∧ Headed.head w = Headed.head v → w = v) :
    (values.foldl insert shelf).map.get? id = some v ↔
      shelf.map.get? id = some v ∨ v ∈ values ∧ Headed.head v = id := by
  have holds := Holds.foldl values shelf.holds_self
  refine ⟨fun stored => ?_, fun either => ?_⟩
  · exact (get?_foldl_insert stored).imp_right fun listed =>
      ⟨listed, (values.foldl insert shelf).head_eq stored⟩
  · rcases either with stored | ⟨listed, rfl⟩
    · have isHead := shelf.head_eq stored
      subst isHead
      refine holds.get?_of_alone (Or.inl stored) fun w candidate sameHead => ?_
      rcases candidate with storedW | listedW
      · rw [sameHead] at storedW
        exact Option.some.inj (storedW.symm.trans stored)
      · exact (agree w listedW v (Or.inl (sameHead.symm ▸ stored))).symm
    · refine holds.get?_of_alone (Or.inr listed) fun w candidate sameHead => agree v listed w ?_
      exact candidate.imp (fun storedW => sameHead ▸ storedW) fun listedW => ⟨listedW, sameHead⟩

theorem ofList_filter_values [IterOrder CommitId] (shelf : Shelf V) (keep : Finset CommitId) :
    ofList (shelf.map.values.filter fun v => Headed.head v ∈ keep) =
      shelf.retain fun id => decide (id ∈ keep) := by
  refine Shelf.ext fun id => ?_
  have holds := holds_ofList (shelf.map.values.filter fun v => Headed.head v ∈ keep) id
  have listed : ∀ v, v ∈ shelf.map.values.filter (fun v => Headed.head v ∈ keep) ∧
      Headed.head v = id ↔ (shelf.retain fun id => decide (id ∈ keep)).map.get? id = some v := by
    intro v
    rw [mem_filter, mem_values, get?_retain, decide_eq_true_eq, decide_eq_true_eq]
    refine ⟨fun candidate => ?_, fun stored => ?_⟩
    · obtain ⟨⟨stored, stays⟩, rfl⟩ := candidate
      exact ⟨stored, stays⟩
    · have isHead := shelf.head_eq stored.1
      rw [isHead]
      exact ⟨stored, rfl⟩
  cases stored : (ofList (shelf.map.values.filter fun v => Headed.head v ∈ keep)).map.get? id with
  | none =>
    rw [stored] at holds
    refine (Option.eq_none_iff_forall_ne_some.mpr fun v found => ?_).symm
    exact holds v ((listed v).mpr found)
  | some v =>
    rw [stored] at holds
    exact ((listed v).mp holds.candidate).symm

end Shelf

/-! ### Lists without a second value for a head -/

section Single

variable [Blake3] {V : Type} [Headed V] [Encode V] {values others : List V}

/-- **No head has two values.** -/
def Single (values : List V) : Prop :=
  ∀ v ∈ values, ∀ w ∈ values, Headed.head w = Headed.head v → w = v

theorem Single.get?_ofList (single : Single values) (same : ∀ v, v ∈ values ↔ v ∈ others)
    {id : CommitId} {v : V} :
    (Shelf.ofList others).map.get? id = some v ↔ v ∈ others ∧ Headed.head v = id := by
  refine ⟨fun found => ⟨Shelf.mem_of_get?_ofList found, (Shelf.ofList others).head_eq found⟩, ?_⟩
  intro both
  obtain ⟨listed, rfl⟩ := both
  exact Shelf.get?_ofList listed fun w listedW =>
    single v ((same v).mpr listed) w ((same w).mpr listedW)

theorem Single.ofList_congr (single : Single values) (same : ∀ v, v ∈ values ↔ v ∈ others) :
    Shelf.ofList values = Shelf.ofList others := by
  refine Shelf.ext fun id => Option.ext fun v => ?_
  rw [single.get?_ofList fun _ => Iff.rfl, single.get?_ofList same, same v]

theorem Single.concat (single : Single values) {v : V}
    (alone : ∀ w, (Shelf.ofList values).map.get? (Headed.head v) = some w → w = v) :
    Single (values ++ [v]) := by
  have fresh : ∀ w ∈ values, Headed.head w = Headed.head v → w = v := by
    intro w listed sameHead
    refine alone w ?_
    rw [← sameHead]
    exact Shelf.get?_ofList listed (single w listed)
  intro a listed b listedB sameHead
  rcases mem_append.mp listed with old | new
  · rcases mem_append.mp listedB with oldB | newB
    · exact single a old b oldB sameHead
    · rw [mem_singleton.mp newB] at sameHead ⊢
      exact (fresh a old sameHead.symm).symm
  · rw [mem_singleton.mp new] at sameHead ⊢
    rcases mem_append.mp listedB with oldB | newB
    · exact fresh b oldB sameHead
    · exact mem_singleton.mp newB

end Single

/-! ### The tree -/

/-- All the metadata of one document. -/
structure Sedimentree where
  fragments : Shelf Fragment
  commits : Shelf LooseCommit

/-- The heads that survive minimization. -/
structure KeepSets where
  fragmentHeads : Finset CommitId
  commitHeads : Finset CommitId

namespace Sedimentree

@[ext] theorem ext {first second : Sedimentree}
    (fragments : ∀ id, first.fragments.map.get? id = second.fragments.map.get? id)
    (commits : ∀ id, first.commits.map.get? id = second.commits.map.get? id) : first = second := by
  obtain ⟨firstFragments, firstCommits⟩ := first
  obtain ⟨secondFragments, secondCommits⟩ := second
  have fragmentsEq : firstFragments = secondFragments := Shelf.ext fragments
  have commitsEq : firstCommits = secondCommits := Shelf.ext commits
  rw [fragmentsEq, commitsEq]

instance : EmptyCollection Sedimentree := ⟨⟨∅, ∅⟩⟩

def fragment? (tree : Sedimentree) (id : CommitId) : Option Fragment := tree.fragments.map.get? id

def commit? (tree : Sedimentree) (id : CommitId) : Option LooseCommit := tree.commits.map.get? id

def fragmentKeys (tree : Sedimentree) : Finset CommitId := tree.fragments.map.keys

def commitKeys (tree : Sedimentree) : Finset CommitId := tree.commits.map.keys

section Construct

variable [Blake3] [Bijou64]

/-- `Sedimentree::new`. -/
def new (fragments : List Fragment) (commits : List LooseCommit) : Sedimentree :=
  ⟨Shelf.ofList fragments, Shelf.ofList commits⟩

/-- `Sedimentree::add_commit`: also tells whether the commit was not present. -/
def addCommit (tree : Sedimentree) (commit : LooseCommit) : Sedimentree × Bool :=
  ({ tree with commits := (tree.commits.add commit).1 }, (tree.commits.add commit).2)

/-- `Sedimentree::add_fragment`: also tells whether the fragment was not present. -/
def addFragment (tree : Sedimentree) (fragment : Fragment) : Sedimentree × Bool :=
  ({ tree with fragments := (tree.fragments.add fragment).1 }, (tree.fragments.add fragment).2)

/-- `Sedimentree::merge`. -/
def merge [IterOrder CommitId] (tree other : Sedimentree) : Sedimentree :=
  ⟨tree.fragments.merge other.fragments, tree.commits.merge other.commits⟩

end Construct

section Minimization

variable [IterOrder CommitId]

/-- The fragments that no deeper fragment that stays supports, the deepest first. -/
def minimizedFragments (tree : Sedimentree) (metric : DepthMetric) : List Fragment :=
  sweep (fun fragment => fragment.depth metric)
    (fun deeper fragment => deeper.supports fragment.summary metric)
    (tree.fragments.map.values.insertionSort fun first second => first.head ≤ second.head)

def dag (tree : Sedimentree) : CommitDag := CommitDag.fromCommits tree.commits.map.values

/-- `Sedimentree::keep_sets`. -/
def keepSets (tree : Sedimentree) (metric : DepthMetric) : KeepSets :=
  let minimized := tree.minimizedFragments metric
  ⟨(minimized.map Fragment.head).toFinset, tree.dag.simplify minimized metric⟩

/-- `Sedimentree::minimize`: a fresh minimal tree. -/
def minimize [Blake3] [Bijou64] (tree : Sedimentree) (metric : DepthMetric) : Sedimentree :=
  let keep := tree.keepSets metric
  new (tree.fragments.map.values.filter fun fragment => fragment.head ∈ keep.fragmentHeads)
    (tree.commits.map.values.filter fun commit => commit.head ∈ keep.commitHeads)

/-- `Sedimentree::minimize_in_place`. -/
def minimizeInPlace (tree : Sedimentree) (metric : DepthMetric) : Sedimentree :=
  let keep := tree.keepSets metric
  ⟨tree.fragments.retain fun head => decide (head ∈ keep.fragmentHeads),
    tree.commits.retain fun head => decide (head ∈ keep.commitHeads)⟩

/-- The identifiers that a commit has as a parent or a fragment in its boundary. -/
def referencedIds (tree : Sedimentree) : Finset CommitId :=
  tree.commits.map.values.toFinset.biUnion LooseCommit.parents
    ∪ tree.fragments.map.values.toFinset.biUnion Fragment.boundary

def referencedCheckpoints (tree : Sedimentree) : Finset Checkpoint :=
  tree.fragments.map.values.toFinset.biUnion Fragment.checkpoints

/-- `Sedimentree::heads_assuming_minimal`. -/
def headsAssumingMinimal (tree : Sedimentree) : List CommitId :=
  IterOrder.list ((tree.fragmentKeys ∪ tree.commitKeys).filter fun id =>
    id ∉ tree.referencedIds ∧ Checkpoint.new id ∉ tree.referencedCheckpoints)

/-- `Sedimentree::heads`. -/
def heads [Blake3] [Bijou64] (tree : Sedimentree) (metric : DepthMetric) : List CommitId :=
  (tree.minimize metric).headsAssumingMinimal

end Minimization

/-! ### Entries -/

variable {tree : Sedimentree}

variable {id : CommitId}

theorem head_of_fragment? {fragment : Fragment}
    (stored : tree.fragment? id = some fragment) : fragment.head = id :=
  tree.fragments.head_eq stored

theorem head_of_commit? {commit : LooseCommit}
    (stored : tree.commit? id = some commit) : commit.head = id :=
  tree.commits.head_eq stored

@[simp] theorem fragment?_empty (id : CommitId) : (∅ : Sedimentree).fragment? id = none := rfl

@[simp] theorem commit?_empty (id : CommitId) : (∅ : Sedimentree).commit? id = none := rfl

theorem mem_fragmentKeys :
    id ∈ tree.fragmentKeys ↔ ∃ fragment, tree.fragment? id = some fragment := mem_keys

theorem mem_commitKeys : id ∈ tree.commitKeys ↔ ∃ commit, tree.commit? id = some commit := mem_keys

variable [IterOrder CommitId]

theorem mem_fragments_values {fragment : Fragment} :
    fragment ∈ tree.fragments.map.values ↔ tree.fragment? fragment.head = some fragment :=
  Shelf.mem_values

theorem mem_commits_values {commit : LooseCommit} :
    commit ∈ tree.commits.map.values ↔ tree.commit? commit.head = some commit :=
  Shelf.mem_values

theorem mem_commit_heads :
    id ∈ tree.commits.map.values.map LooseCommit.head ↔ id ∈ tree.commitKeys := by
  rw [mem_map, mem_commitKeys]
  refine ⟨fun ⟨commit, member, isHead⟩ => ?_, fun ⟨commit, stored⟩ => ?_⟩
  · rw [← isHead]
    exact ⟨commit, mem_commits_values.mp member⟩
  · have isHead := head_of_commit? stored
    exact ⟨commit, mem_commits_values.mpr (isHead.symm ▸ stored), isHead⟩

end Sedimentree

end Subduction
