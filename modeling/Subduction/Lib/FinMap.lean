/-
**Finite maps, and maps that keep the value of least rank.**

`FinMap K V` is a finite set of keys with a lookup that answers on exactly those keys. Two maps
with the same lookups are equal (`FinMap.ext`), and every operation is described by its lookup.

* **`holds_insertLeast`** — an insertion leaves at its key a value of least rank among the old one and
  the new one (`LeastAt`); when the rank separates the values involved this value is unique
  (`LeastAt.unique`), so the order of insertions does not matter.
-/

import Mathlib.Data.Finset.Basic
import Mathlib.Data.Finset.Card
import Mathlib.Data.Finset.Dedup
import Mathlib.Data.List.Sort
import Mathlib.Data.Set.Function
import Mathlib.Order.Basic

namespace Subduction

open List

/-- The order in which a finite set of keys is listed when it is iterated. -/
class IterOrder (K : Type*) where
  list : Finset K → List K
  mem_list : ∀ {keys : Finset K} {key : K}, key ∈ list keys ↔ key ∈ keys
  nodup_list : ∀ keys : Finset K, (list keys).Nodup

theorem IterOrder.length_list {K : Type*} [IterOrder K] [DecidableEq K] (keys : Finset K) :
    (IterOrder.list keys).length = keys.card := by
  have same : (IterOrder.list keys).toFinset = keys := by
    ext key
    rw [mem_toFinset, IterOrder.mem_list]
  rw [← toFinset_card_of_nodup (IterOrder.nodup_list keys), same]

/-- The elements of a finite set in ascending order. -/
def ascendingList {K : Type*} [LinearOrder K] (keys : Finset K) : List K :=
  Quot.liftOn keys.val (List.insertionSort (· ≤ ·)) fun first second same =>
    ((List.perm_insertionSort _ first).trans
      (same.trans (List.perm_insertionSort _ second).symm)).eq_of_pairwise'
      (List.pairwise_insertionSort _ first) (List.pairwise_insertionSort _ second)

section

variable {K : Type*} [LinearOrder K]

theorem coe_ascendingList (keys : Finset K) : (ascendingList keys : Multiset K) = keys.val := by
  obtain ⟨elements, distinct⟩ := keys
  induction elements using Quot.ind
  exact Quot.sound (perm_insertionSort _ _)

theorem mem_ascendingList {keys : Finset K} {key : K} : key ∈ ascendingList keys ↔ key ∈ keys := by
  rw [← Multiset.mem_coe, coe_ascendingList, Finset.mem_val]

theorem pairwise_ascendingList (keys : Finset K) : (ascendingList keys).Pairwise (· < ·) := by
  have distinct : (ascendingList keys).Nodup := by
    rw [← Multiset.coe_nodup, coe_ascendingList]
    exact keys.nodup
  have sorted : (ascendingList keys).Pairwise (· ≤ ·) := by
    obtain ⟨elements, _⟩ := keys
    induction elements using Quot.ind
    exact pairwise_insertionSort _ _
  exact (sorted.and distinct).imp fun both => lt_of_le_of_ne both.1 both.2

@[simp] theorem length_ascendingList (keys : Finset K) :
    (ascendingList keys).length = keys.card := by
  rw [← Multiset.coe_card, coe_ascendingList, Finset.card_val]

/-- **The ascending list** is the only strictly ascending list of the elements. -/
theorem eq_ascendingList_iff [DecidableEq K] {list : List K} {keys : Finset K} :
    list = ascendingList keys ↔ list.Pairwise (· < ·) ∧ list.toFinset = keys := by
  constructor
  · rintro rfl
    refine ⟨pairwise_ascendingList keys, ?_⟩
    ext key
    rw [mem_toFinset, mem_ascendingList]
  · rintro ⟨sorted, rfl⟩
    have members : list.Perm (ascendingList list.toFinset) := by
      refine (perm_ext_iff_of_nodup ?_ ?_).mpr fun key => ?_
      · exact sorted.imp fun before => ne_of_lt before
      · exact (pairwise_ascendingList _).imp fun before => ne_of_lt before
      · rw [mem_ascendingList, mem_toFinset]
    exact members.eq_of_pairwise' sorted (pairwise_ascendingList _)

end

/-- A search tree lists its keys in ascending order. -/
@[reducible] def IterOrder.ascending (K : Type*) [LinearOrder K] : IterOrder K where
  list := ascendingList
  mem_list := mem_ascendingList
  nodup_list keys := by
    rw [← Multiset.coe_nodup, coe_ascendingList]
    exact keys.nodup

/-- Keys in descending order, for runs on fixed inputs. -/
@[reducible] def IterOrder.descending (K : Type*) [LinearOrder K] : IterOrder K where
  list keys := (ascendingList keys).reverse
  mem_list := List.mem_reverse.trans mem_ascendingList
  nodup_list keys := List.nodup_reverse.mpr ((IterOrder.ascending K).nodup_list keys)

/-- Some keys after all others, each part in ascending order. -/
@[reducible] def IterOrder.trailing {K : Type*} [LinearOrder K] (last : Finset K) : IterOrder K where
  list keys := ascendingList (keys \ last) ++ ascendingList (keys ∩ last)
  mem_list := by
    intro keys key
    rw [List.mem_append, mem_ascendingList, mem_ascendingList, ← Finset.mem_union, Finset.sdiff_union_inter]
  nodup_list keys := by
    refine List.nodup_append'.mpr ⟨(IterOrder.ascending K).nodup_list _, (IterOrder.ascending K).nodup_list _, ?_⟩
    intro key first second
    exact (Finset.mem_sdiff.mp (mem_ascendingList.mp first)).2
      (Finset.mem_inter.mp (mem_ascendingList.mp second)).2

theorem IterOrder.lt_of_trailing {K : Type*} [LinearOrder K] {last keys : Finset K} {key other : K} {i j : Nat}
    (atKey : ((IterOrder.trailing last).list keys)[i]? = some key)
    (atOther : ((IterOrder.trailing last).list keys)[j]? = some other)
    (early : key ∉ last) (late : other ∈ last) : i < j := by
  change (ascendingList (keys \ last) ++ ascendingList (keys ∩ last))[i]? = some key at atKey
  change (ascendingList (keys \ last) ++ ascendingList (keys ∩ last))[j]? = some other at atOther
  by_contra notLess
  rcases Nat.lt_or_ge j (ascendingList (keys \ last)).length with inFirst | inSecond
  · rw [List.getElem?_append_left inFirst] at atOther
    have member := mem_ascendingList.mp (mem_of_getElem? atOther)
    exact (Finset.mem_sdiff.mp member).2 late
  · rw [List.getElem?_append_right (by omega)] at atKey
    have member := mem_ascendingList.mp (mem_of_getElem? atKey)
    exact early (Finset.mem_inter.mp member).2

structure FinMap (K V : Type*) where
  keys : Finset K
  get? : K → Option V
  isSome_get? : ∀ key, (get? key).isSome ↔ key ∈ keys

namespace FinMap

variable {K V W : Type*}

@[ext] theorem ext {first second : FinMap K V} (same : ∀ key, first.get? key = second.get? key) :
    first = second := by
  obtain ⟨firstKeys, firstGet, firstSome⟩ := first
  obtain ⟨secondKeys, secondGet, secondSome⟩ := second
  have getEq : firstGet = secondGet := funext same
  subst getEq
  have keysEq : firstKeys = secondKeys := by
    ext key
    rw [← firstSome, ← secondSome]
  subst keysEq
  rfl

theorem mem_keys {map : FinMap K V} {key : K} : key ∈ map.keys ↔ ∃ value, map.get? key = some value := by
  rw [← map.isSome_get?, Option.isSome_iff_exists]

theorem mem_keys_of_get? {map : FinMap K V} {key : K} {value : V} (found : map.get? key = some value) :
    key ∈ map.keys :=
  mem_keys.mpr ⟨value, found⟩

theorem get?_eq_none {map : FinMap K V} {key : K} : map.get? key = none ↔ key ∉ map.keys := by
  rw [← map.isSome_get?, Option.not_isSome_iff_eq_none]

def empty : FinMap K V where
  keys := ∅
  get? _ := none
  isSome_get? _ := by simp

instance : EmptyCollection (FinMap K V) := ⟨empty⟩

instance : Inhabited (FinMap K V) := ⟨∅⟩

@[simp] theorem get?_empty (key : K) : (∅ : FinMap K V).get? key = none := rfl

@[simp] theorem keys_empty : (∅ : FinMap K V).keys = ∅ := rfl

/-- Keep the entries that satisfy `keep`. -/
def retain [DecidableEq K] (map : FinMap K V) (keep : K → V → Bool) : FinMap K V where
  keys := map.keys.filter fun key => ((map.get? key).filter (keep key)).isSome
  get? key := (map.get? key).filter (keep key)
  isSome_get? key := by
    rw [Finset.mem_filter]
    refine ⟨fun kept => ⟨?_, kept⟩, fun member => member.2⟩
    obtain ⟨value, found⟩ := Option.isSome_iff_exists.mp kept
    exact mem_keys_of_get? (Option.filter_eq_some_iff.mp found).1

@[simp] theorem get?_retain [DecidableEq K] (map : FinMap K V) (keep : K → V → Bool) (key : K) :
    (map.retain keep).get? key = (map.get? key).filter (keep key) := rfl

theorem get?_retain_eq_some [DecidableEq K] {map : FinMap K V} {keep : K → V → Bool} {key : K}
    {value : V} :
    (map.retain keep).get? key = some value ↔ map.get? key = some value ∧ keep key value = true := by
  rw [get?_retain, Option.filter_eq_some_iff]

/-- Change every value, dropping those that leave nothing. -/
def filterMap (map : FinMap K V) (change : V → Option W) : FinMap K W where
  keys := map.keys.filter fun key => ((map.get? key).bind change).isSome
  get? key := (map.get? key).bind change
  isSome_get? key := by
    rw [Finset.mem_filter]
    refine ⟨fun changed => ⟨?_, changed⟩, fun member => member.2⟩
    obtain ⟨value, found⟩ := Option.isSome_iff_exists.mp changed
    obtain ⟨old, stored, _⟩ := Option.bind_eq_some_iff.mp found
    exact mem_keys_of_get? stored

/-- Change every value in view of its key, dropping those that leave nothing. -/
def filterMapKeyed [DecidableEq K] (map : FinMap K V) (change : K → V → Option W) : FinMap K W where
  keys := map.keys.filter fun key => ((map.get? key).bind (change key)).isSome
  get? key := (map.get? key).bind (change key)
  isSome_get? key := by
    rw [Finset.mem_filter]
    refine ⟨fun changed => ⟨?_, changed⟩, fun member => member.2⟩
    obtain ⟨value, found⟩ := Option.isSome_iff_exists.mp changed
    obtain ⟨old, stored, _⟩ := Option.bind_eq_some_iff.mp found
    exact mem_keys_of_get? stored

@[simp] theorem get?_filterMapKeyed [DecidableEq K] (map : FinMap K V) (change : K → V → Option W)
    (key : K) : (map.filterMapKeyed change).get? key = (map.get? key).bind (change key) := rfl

/-- The map with the given keys whose values are computed from them. -/
def ofSet [DecidableEq K] (keys : Finset K) (value : K → V) : FinMap K V where
  keys := keys
  get? key := if key ∈ keys then some (value key) else none
  isSome_get? key := by
    by_cases member : key ∈ keys
    · simp [member]
    · simp [member]

@[simp] theorem keys_ofSet [DecidableEq K] (keys : Finset K) (value : K → V) :
    (ofSet keys value).keys = keys := rfl

theorem get?_ofSet [DecidableEq K] (keys : Finset K) (value : K → V) (key : K) :
    (ofSet keys value).get? key = if key ∈ keys then some (value key) else none := rfl

/-- The entries of both maps; the first one wins. -/
def union [DecidableEq K] (first second : FinMap K V) : FinMap K V where
  keys := first.keys ∪ second.keys
  get? key := (first.get? key).or (second.get? key)
  isSome_get? key := by
    rw [Finset.mem_union, ← first.isSome_get?, ← second.isSome_get?, Option.isSome_or, Bool.or_eq_true]

@[simp] theorem get?_union [DecidableEq K] (first second : FinMap K V) (key : K) :
    (first.union second).get? key = (first.get? key).or (second.get? key) := rfl

/-- The map under other names of its keys. -/
def reindex {L : Type*} [DecidableEq L] (map : FinMap K V) (rename : K → L) (original : L → Option K)
    (inverse : ∀ key name, original name = some key ↔ rename key = name) : FinMap L V where
  keys := map.keys.image rename
  get? name := (original name).bind map.get?
  isSome_get? name := by
    rw [Finset.mem_image, Option.isSome_bind, Option.any_eq_true]
    constructor
    · rintro ⟨key, isKey, found⟩
      exact ⟨key, (map.isSome_get? key).mp found, (inverse key name).mp isKey⟩
    · rintro ⟨key, member, isName⟩
      exact ⟨key, (inverse key name).mpr isName, (map.isSome_get? key).mpr member⟩

section Insert

variable [DecidableEq K]

section

variable (map : FinMap K V)

def erase (key : K) : FinMap K V := map.retain fun other _ => decide (other ≠ key)

theorem get?_erase (key other : K) :
    (map.erase key).get? other = if other = key then none else map.get? other := by
  rw [erase, get?_retain]
  by_cases same : other = key
  · rw [if_pos same]
    cases map.get? other with
    | none => rfl
    | some value => exact Option.filter_some_neg (by simp [same])
  · rw [if_neg same]
    cases map.get? other with
    | none => rfl
    | some value => exact Option.filter_some_pos (decide_eq_true same)

def insert (key : K) (value : V) : FinMap K V where
  keys := Insert.insert key map.keys
  get? other := if other = key then some value else map.get? other
  isSome_get? other := by
    by_cases same : other = key
    · simp [same]
    · simp [same, map.isSome_get?]

theorem get?_insert (key other : K) (value : V) :
    (map.insert key value).get? other = if other = key then some value else map.get? other := rfl

@[simp] theorem get?_insert_self (key : K) (value : V) :
    (map.insert key value).get? key = some value := if_pos rfl

theorem get?_insert_of_ne {key other : K} (value : V) (different : other ≠ key) :
    (map.insert key value).get? other = map.get? other := if_neg different

theorem of_get?_insert {map : FinMap K V} {key other : K} {value found : V}
    (stored : (map.insert key value).get? other = some found) :
    (other = key ∧ found = value) ∨ (other ≠ key ∧ map.get? other = some found) := by
  rw [get?_insert] at stored
  by_cases same : other = key
  · rw [if_pos same] at stored
    exact Or.inl ⟨same, (Option.some.inj stored).symm⟩
  · rw [if_neg same] at stored
    exact Or.inr ⟨same, stored⟩

@[simp] theorem keys_insert (key : K) (value : V) :
    (map.insert key value).keys = Insert.insert key map.keys := rfl

/-- The value stays where there is one. -/
def orInsert (key : K) (value : V) : FinMap K V :=
  match map.get? key with
  | some _ => map
  | none => map.insert key value

theorem get?_orInsert (key other : K) (value : V) : (map.orInsert key value).get? other =
      if other = key then some ((map.get? key).getD value) else map.get? other := by
  unfold orInsert
  cases stored : map.get? key with
  | some old =>
    by_cases same : other = key
    · rw [if_pos same, same, stored, Option.getD_some]
    · rw [if_neg same]
  | none => rw [get?_insert, Option.getD_none]

def modify (key : K) (change : V → V) : FinMap K V where
  keys := map.keys
  get? other := if other = key then (map.get? other).map change else map.get? other
  isSome_get? other := by
    by_cases same : other = key
    · simp [same, map.isSome_get?]
    · simp [same, map.isSome_get?]

theorem get?_modify (key other : K) (change : V → V) : (map.modify key change).get? other =
      if other = key then (map.get? other).map change else map.get? other := rfl

@[simp] theorem keys_modify (key : K) (change : V → V) :
    (map.modify key change).keys = map.keys := rfl

end

/-- The positions of values by their keys; of two values with one key the later one. -/
def positions (keyOf : V → K) (list : List V) : FinMap K Nat :=
  list.zipIdx.foldl (fun map entry => map.insert (keyOf entry.1) entry.2) ∅

theorem get?_foldl_zipIdx (keyOf : V → K) (key : K) : ∀ (list : List V) (offset : Nat) (map : FinMap K Nat),
    (list.map keyOf).Nodup →
    ((list.zipIdx offset).foldl (fun map entry => map.insert (keyOf entry.1) entry.2) map).get? key =
      if key ∈ list.map keyOf then some (offset + (list.map keyOf).idxOf key) else map.get? key := by
  intro list
  induction list with
  | nil => exact fun _ _ _ => rfl
  | cons value list ih =>
    intro offset map distinct
    obtain ⟨fresh, distinct⟩ := nodup_cons.mp distinct
    rw [zipIdx_cons, foldl_cons, ih (offset + 1) _ distinct, map_cons]
    by_cases first : key = keyOf value
    · subst first
      rw [if_neg fresh, if_pos mem_cons_self, get?_insert_self, idxOf_cons_self, Nat.add_zero]
    · rw [get?_insert_of_ne _ _ first, idxOf_cons_ne _ fun same => first same.symm]
      by_cases later : key ∈ list.map keyOf
      · rw [if_pos later, if_pos (mem_cons_of_mem _ later), Nat.add_assoc, Nat.add_comm 1]
      · rw [if_neg later, if_neg fun member => (mem_cons.mp member).elim first later]

theorem get?_positions {keyOf : V → K} {list : List V} (distinct : (list.map keyOf).Nodup) (key : K)
    (idx : Nat) : (positions keyOf list).get? key = some idx ↔ (list.map keyOf)[idx]? = some key := by
  unfold positions
  rw [get?_foldl_zipIdx keyOf key list 0 ∅ distinct]
  by_cases member : key ∈ list.map keyOf
  · rw [if_pos member, Option.some.injEq, Nat.zero_add]
    have inside := idxOf_lt_length_of_mem member
    constructor
    · rintro rfl
      rw [List.getElem?_eq_getElem inside, getElem_idxOf inside]
    · intro atIdx
      obtain ⟨bound, same⟩ := List.getElem?_eq_some_iff.mp atIdx
      rw [← same]
      exact List.Nodup.idxOf_getElem distinct idx bound
  · rw [if_neg member]
    refine iff_of_false (by simp) fun atIdx => member (mem_of_getElem? atIdx)

end Insert

/-! ### Iteration -/

section Iterate

variable [IterOrder K]

def entries (map : FinMap K V) : List (K × V) :=
  (IterOrder.list map.keys).filterMap fun key => (map.get? key).map fun value => (key, value)

def values (map : FinMap K V) : List V := map.entries.map Prod.snd

theorem mem_entries {map : FinMap K V} {key : K} {value : V} :
    (key, value) ∈ map.entries ↔ map.get? key = some value := by
  unfold entries
  rw [mem_filterMap]
  constructor
  · rintro ⟨other, _, found⟩
    obtain ⟨stored, hit, same⟩ := Option.map_eq_some_iff.mp found
    rw [Prod.mk.injEq] at same
    rw [← same.1, ← same.2]
    exact hit
  · intro found
    refine ⟨key, IterOrder.mem_list.mpr (mem_keys_of_get? found), ?_⟩
    rw [found]
    rfl

theorem mem_values {map : FinMap K V} {value : V} :
    value ∈ map.values ↔ ∃ key, map.get? key = some value := by
  unfold values
  rw [mem_map]
  constructor
  · rintro ⟨⟨key, stored⟩, member, rfl⟩
    exact ⟨key, mem_entries.mp member⟩
  · rintro ⟨key, found⟩
    exact ⟨(key, value), mem_entries.mpr found, rfl⟩

end Iterate

/-! ### Keeping the value of least rank -/

section Least

variable [DecidableEq K] {R : Type*} [LinearOrder R] (rank : V → R)

/-- Insert, keeping on a collision the value of smaller rank and the old value on a tie. -/
def insertLeast (map : FinMap K V) (key : K) (value : V) : FinMap K V :=
  match map.get? key with
  | none => map.insert key value
  | some old => if rank value < rank old then map.insert key value else map

/-- `value` is one of `candidates` and none of them has a smaller rank. -/
structure LeastAt (candidates : V → Prop) (value : V) : Prop where
  candidate : candidates value
  least : ∀ other, candidates other → rank value ≤ rank other

variable {rank}

theorem LeastAt.unique {candidates : V → Prop} {value other : V}
    (separated : Set.InjOn rank {v | candidates v}) (first : LeastAt rank candidates value)
    (second : LeastAt rank candidates other) : value = other :=
  separated first.candidate second.candidate
    (le_antisymm (first.least other second.candidate) (second.least value first.candidate))

theorem LeastAt.congr {candidates others : V → Prop} {value : V}
    (same : ∀ v, candidates v ↔ others v) (least : LeastAt rank candidates value) :
    LeastAt rank others value :=
  ⟨(same value).mp least.candidate, fun other member => least.least other ((same other).mpr member)⟩

/-- **What one key holds**: a value of least rank among the candidates, or nothing when there is no
candidate. -/
def Holds (rank : V → R) (candidates : V → Prop) : Option V → Prop
  | none => ∀ value, ¬ candidates value
  | some value => LeastAt rank candidates value

theorem Holds.congr {candidates others : V → Prop} {stored : Option V}
    (same : ∀ v, candidates v ↔ others v) (holds : Holds rank candidates stored) :
    Holds rank others stored := by
  cases stored with
  | none => exact fun value member => holds value ((same value).mpr member)
  | some value => exact LeastAt.congr same holds

theorem Holds.unique {candidates : V → Prop} {first second : Option V}
    (separated : Set.InjOn rank {v | candidates v}) (one : Holds rank candidates first)
    (two : Holds rank candidates second) : first = second := by
  cases first with
  | none =>
    cases second with
    | none => rfl
    | some value => exact (one value two.candidate).elim
  | some value =>
    cases second with
    | none => exact (two value one.candidate).elim
    | some other => rw [LeastAt.unique separated one two]

theorem holds_insertLeast {candidates : K → V → Prop} {map : FinMap K V}
    (holds : ∀ key, Holds rank (candidates key) (map.get? key)) (key : K) (value : V) (other : K) :
    Holds rank (fun v => candidates other v ∨ other = key ∧ v = value)
      ((map.insertLeast rank key value).get? other) := by
  unfold insertLeast
  by_cases same : other = key
  · subst same
    cases stored : map.get? other with
    | none =>
      have before := holds other
      rw [stored] at before
      simp only [get?_insert_self, true_and]
      refine ⟨Or.inr rfl, fun candidate member => ?_⟩
      rcases member with member | rfl
      · exact (before candidate member).elim
      · exact le_rfl
    | some old =>
      have before := holds other
      rw [stored] at before
      by_cases smaller : rank value < rank old
      · simp only [if_pos smaller, get?_insert_self, true_and]
        refine ⟨Or.inr rfl, fun candidate member => ?_⟩
        rcases member with member | rfl
        · exact smaller.le.trans (before.least candidate member)
        · exact le_rfl
      · simp only [if_neg smaller, stored, true_and]
        refine ⟨Or.inl before.candidate, fun candidate member => ?_⟩
        rcases member with member | rfl
        · exact before.least candidate member
        · exact not_lt.mp smaller
  · have unchanged : (match map.get? key with
        | none => map.insert key value
        | some old => if rank value < rank old then map.insert key value else map).get? other =
        map.get? other := by
      cases map.get? key with
      | none => exact get?_insert_of_ne _ _ same
      | some old =>
        by_cases smaller : rank value < rank old
        · simp only [if_pos smaller]
          exact get?_insert_of_ne _ _ same
        · simp only [if_neg smaller]
    rw [unchanged]
    exact (holds other).congr fun v => by simp [same]

end Least

end FinMap

end Subduction
