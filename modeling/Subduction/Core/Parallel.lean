/-
**What the parallel builder builds.**

The parallel builder builds a whole horizon from one snapshot and goes on with the boundaries of
what it built. It leaves out the known fragments of a horizon instead of walking past them, and it
does not take out what a horizon has more than once.

* `LevelInv.exists_heads`, **`LevelInv.step`** — one level.
* **`buildFragmentStorePar_eq_finish`** — the builder drafts the heads on all levels, and lists each
  once exactly when it has a single source.
-/

import Subduction.Core.Horizon
import Subduction.Lib.Levels

set_option linter.unusedSectionVars false

namespace Subduction

open Relation Strata Levels List

variable {Node LookupError : Type} [Parents Node] [IterOrder CommitId]

namespace CommitStore

variable {store : CommitStore Node LookupError} {edge : CommitId → CommitId → Prop}
  {within : CommitId → Prop} {metric : DepthMetric}
  {known : FinMap CommitId (FragmentState Node)}

/-! ### Levels -/

section Levels

variable (edge : CommitId → CommitId → Prop) (within : CommitId → Prop) (metric : DepthMetric)
  (old : FinMap CommitId (FragmentState Node)) (headIds : List CommitId)

def Unbuilt (a : CommitId) : Prop := a ∉ old.keys ∧ within a ∧ 0 < metric a

/-- The heads of the first level: those given, and those behind commits of depth zero. -/
def FirstLevel (a : CommitId) : Prop :=
  Unbuilt within metric old a ∧
    (a ∈ headIds ∨ ∃ d, LooseFrom edge within metric old headIds d ∧ within d ∧ edge d a)

def NextLevel (g a : CommitId) : Prop := Unbuilt within metric old a ∧ Rim edge metric g a

/-- **The level on which a head is met first**, without passing a known fragment. -/
def FirstMet (k : Nat) (a : CommitId) : Prop :=
  Levels.First (FirstLevel edge within metric old headIds) (NextLevel edge within metric old) k a

/-- What puts a head on a horizon: an entry of the list of heads, or a commit. -/
inductive Source where
  | given (position : Nat)
  | commit (id : CommitId)

/-- **The source leads to the head on the level** `k`. -/
def Lead : Nat → Source → CommitId → Prop
  | 0, .given position, a => headIds[position]? = some a
  | 0, .commit d, a => LooseFrom edge within metric old headIds d ∧ within d ∧ edge d a
  | _ + 1, .given _, _ => False
  | k + 1, .commit g, a => FirstMet edge within metric old headIds k g ∧ Rim edge metric g a

/-- Every head met first on the level `k` has a single source there. -/
def SingleLead (k : Nat) : Prop :=
  ∀ a, FirstMet edge within metric old headIds k a → ∀ source other,
    Lead edge within metric old headIds k source a → Lead edge within metric old headIds k other a →
    source = other

end Levels

/-- The builder before the level `k`. -/
structure LevelInv (store : CommitStore Node LookupError) (edge : CommitId → CommitId → Prop)
    (within : CommitId → Prop) (metric : DepthMetric) (old : FinMap CommitId (FragmentState Node))
    (headIds : List CommitId) (k : Nat) (build : Build Node) : Prop where
  drafted : Drafted store edge metric old build.known
  keys : ∀ a, a ∈ build.known.keys ↔ a ∈ old.keys ∨
    ∃ j < k, Levels.At (FirstLevel edge within metric old headIds) (NextLevel edge within metric old) j a
  fresh : ∀ a, a ∈ build.freshHeads ↔ a ∈ build.known.keys ∧ a ∉ old.keys
  single : build.freshHeads.Nodup ↔ ∀ j < k, SingleLead edge within metric old headIds j

/-- The horizon of the level `k`: the heads that were given, or the boundaries of the states of the
level before. -/
def HorizonAt (edge : CommitId → CommitId → Prop) (within : CommitId → Prop) (metric : DepthMetric)
    (old : FinMap CommitId (FragmentState Node)) (headIds : List CommitId) (build : Build Node) :
    Nat → List CommitId → Prop
  | 0, horizon => horizon = headIds
  | k + 1, horizon => ∃ states : List (CommitId × FragmentState Node),
      horizon = states.flatMap (fun item => IterOrder.list item.2.boundary.keys) ∧
      (∀ a, a ∈ states.map Prod.fst ↔ FirstMet edge within metric old headIds k a) ∧
      (build.freshHeads.Nodup → (states.map Prod.fst).Nodup) ∧
      ∀ item ∈ states, ∀ b, b ∈ item.2.boundary.keys ↔ Rim edge metric item.1 b

/-- The heads among the given commits that the store has. -/
def buildable (store : CommitStore Node LookupError) (metric : DepthMetric)
    (known : FinMap CommitId (FragmentState Node)) (ids : List CommitId) : List CommitId :=
  (headsOf metric known ids).filter store.holds

section LevelStep

variable {old : FinMap CommitId (FragmentState Node)} {headIds horizon : List CommitId} {k : Nat}
  {build : Build Node}

theorem Serves.mem_buildable (serves : store.Serves edge within) {ids : List CommitId} {a : CommitId} :
    a ∈ store.buildable metric known ids ↔ a ∈ ids ∧ Unbuilt within metric known a := by
  unfold buildable Unbuilt
  rw [mem_filter, mem_headsOf, serves.holds_iff]
  tauto

theorem buildable_flatMap {ι : Type} (items : List ι) (lists : ι → List CommitId) :
    store.buildable metric known (items.flatMap lists) =
      items.flatMap fun i => store.buildable metric known (lists i) := by
  unfold buildable headsOf unknownOf
  rw [filter_flatMap, filter_flatMap, filter_flatMap]

theorem Serves.nodup_buildable_iff (serves : store.Serves edge within) {ids : List CommitId} :
    (store.buildable metric known ids).Nodup ↔ ∀ a, Unbuilt within metric known a →
      ∀ i j : Nat, ids[i]? = some a → ids[j]? = some a → i = j := by
  unfold buildable headsOf unknownOf
  rw [filter_filter, filter_filter, nodup_filter_iff]
  refine forall_congr' fun a => imp_congr_left ?_
  unfold Unbuilt
  simp only [Bool.and_eq_true, decide_eq_true_eq, serves.holds_iff, Depth.isBoundary_iff]
  tauto

theorem nodup_buildable {ids : List CommitId} (distinct : ids.Nodup) :
    (store.buildable metric known ids).Nodup :=
  ((distinct.filter _).filter _).filter _

theorem exists_heads_zero (serves : store.Serves edge within) (metric : DepthMetric)
    (old : FinMap CommitId (FragmentState Node)) (headIds : List CommitId) :
    ∃ heads, store.parHorizon metric old headIds = .ok heads ∧
      (∀ a ∈ heads, a ∉ old.keys ∧ 0 < metric a) ∧
      (∀ a, a ∈ heads.filter store.holds ↔ FirstMet edge within metric old headIds 0 a) ∧
      ((heads.filter store.holds).Nodup ↔ SingleLead edge within metric old headIds 0) := by
  obtain ⟨done, nodup, members, runs⟩ := parHorizon_eq_ok serves metric old headIds
  have split : (headsOf metric old headIds ++
      done.flatMap fun d => headsOf metric old (store.parentList d)).filter store.holds =
      store.buildable metric old headIds ++
        done.flatMap fun d => store.buildable metric old (store.parentList d) := by
    rw [filter_append, filter_flatMap]
    rfl
  have behind : ∀ a, a ∈ done.flatMap (fun d => store.buildable metric old (store.parentList d)) ↔
      Unbuilt within metric old a ∧
        ∃ d, LooseFrom edge within metric old headIds d ∧ within d ∧ edge d a := by
    intro a
    simp only [mem_flatMap, serves.mem_buildable, serves.mem_parentList, members]
    tauto
  have mem : ∀ a, a ∈ store.buildable metric old headIds ++
      done.flatMap (fun d => store.buildable metric old (store.parentList d)) ↔
      FirstMet edge within metric old headIds 0 a := by
    intro a
    unfold FirstMet
    rw [first_zero, mem_append, serves.mem_buildable, behind]
    unfold FirstLevel
    tauto
  refine ⟨_, runs, fun a listed => ?_, fun a => ?_, ?_⟩
  · rcases mem_append.mp listed with onHorizon | behind
    · exact (mem_headsOf.mp onHorizon).2
    · obtain ⟨d, -, isParent⟩ := mem_flatMap.mp behind
      exact (mem_headsOf.mp isParent).2
  · rw [split, mem]
  · have perParent := @nodup_flatMap_iff CommitId CommitId CommitId done id
      (fun d => store.buildable metric old (store.parentList d)) (by rwa [map_id])
      (fun d _ => nodup_buildable (serves.nodup_parentList d))
    rw [split, nodup_append, serves.nodup_buildable_iff, perParent]
    constructor
    · rintro ⟨given, parents, apart⟩ a met source other leads leadsOther
      have unbuilt : Unbuilt within metric old a := (first_zero.mp met).1
      have onList : ∀ i : Nat, headIds[i]? = some a → a ∈ store.buildable metric old headIds :=
        fun i atI => serves.mem_buildable.mpr ⟨mem_of_getElem? atI, unbuilt⟩
      have ofParent : ∀ d, LooseFrom edge within metric old headIds d ∧ within d ∧ edge d a →
          d ∈ done ∧ a ∈ store.buildable metric old (store.parentList d) := fun d lead =>
        ⟨(members d).mpr lead.1, serves.mem_buildable.mpr ⟨serves.mem_parentList.mpr lead.2, unbuilt⟩⟩
      cases source with
      | given i =>
        cases other with
        | given j => rw [given a unbuilt i j leads leadsOther]
        | commit d =>
          have viaParent := ofParent d leadsOther
          exact absurd rfl (apart a (onList i leads) a (mem_flatMap.mpr ⟨d, viaParent⟩))
      | commit d =>
        have viaParent := ofParent d leads
        cases other with
        | given j =>
          exact absurd rfl (apart a (onList j leadsOther) a (mem_flatMap.mpr ⟨d, viaParent⟩))
        | commit d' =>
          have viaOther := ofParent d' leadsOther
          rw [show d = d' from parents d viaParent.1 d' viaOther.1 a viaParent.2 viaOther.2]
    · intro single
      have met : ∀ a, a ∈ store.buildable metric old headIds ++
          done.flatMap (fun d => store.buildable metric old (store.parentList d)) →
          FirstMet edge within metric old headIds 0 a := fun a => (mem a).mp
      refine ⟨fun a unbuilt i j atI atJ => ?_, fun d inDone d' inDone' a viaD viaD' => ?_,
        fun a onList b viaParent same => ?_⟩
      · have listed := serves.mem_buildable.mpr ⟨mem_of_getElem? atI, unbuilt⟩
        exact Source.given.inj (single a (met a (mem_append_left _ listed)) (.given i) (.given j)
          atI atJ)
      · have leadOf : ∀ d ∈ done, a ∈ store.buildable metric old (store.parentList d) →
            Lead edge within metric old headIds 0 (.commit d) a := fun d inDone viaD =>
          ⟨(members d).mp inDone, serves.mem_parentList.mp (serves.mem_buildable.mp viaD).1⟩
        have listed : a ∈ done.flatMap fun d => store.buildable metric old (store.parentList d) :=
          mem_flatMap.mpr ⟨d, inDone, viaD⟩
        exact Source.commit.inj (single a (met a (mem_append_right _ listed)) (.commit d)
          (.commit d') (leadOf d inDone viaD) (leadOf d' inDone' viaD'))
      · subst same
        obtain ⟨i, atI⟩ := mem_iff_getElem?.mp (serves.mem_buildable.mp onList).1
        obtain ⟨d, lead⟩ := ((behind a).mp viaParent).2
        exact nomatch single a (met a (mem_append_left _ onList)) (.given i) (.commit d) atI lead

/-- The heads of a later level: from the boundaries of the states of the level before. -/
theorem exists_heads_succ (inv : LevelInv store edge within metric old headIds (k + 1) build)
    (serves : store.Serves edge within) (positive : ∀ a ∈ horizon, 0 < metric a)
    (sited : HorizonAt edge within metric old headIds build (k + 1) horizon) :
    store.parHorizon metric build.known horizon = .ok (headsOf metric build.known horizon) ∧
      (∀ a, a ∈ store.buildable metric build.known horizon ↔
        FirstMet edge within metric old headIds (k + 1) a) ∧
      (build.freshHeads.Nodup → ((store.buildable metric build.known horizon).Nodup ↔
        SingleLead edge within metric old headIds (k + 1))) := by
  obtain ⟨done, -, members, runs⟩ := parHorizon_eq_ok serves metric build.known horizon
  have none : done = [] := by
    refine eq_nil_iff_forall_not_mem.mpr fun d listed => ?_
    obtain ⟨root, ⟨onHorizon, -, flat⟩, -⟩ := (members d).mp listed
    exact flat (positive root onHorizon)
  rw [none, flatMap_nil, append_nil] at runs
  obtain ⟨states, rfl, heads, distinct, rims⟩ := sited
  have unbuilt : ∀ a, Unbuilt within metric build.known a ↔ Unbuilt within metric old a ∧ ∀ j < k + 1,
      ¬ Levels.At (FirstLevel edge within metric old headIds) (NextLevel edge within metric old) j a := by
    intro a
    unfold Unbuilt
    rw [inv.keys, not_or]
    simp only [not_exists, not_and]
    tauto
  have via : ∀ item ∈ states, ∀ a,
      a ∈ store.buildable metric build.known (IterOrder.list item.2.boundary.keys) ↔
      Rim edge metric item.1 a ∧ Unbuilt within metric build.known a := by
    intro item listed a
    rw [serves.mem_buildable, IterOrder.mem_list, rims item listed]
  have met : ∀ a, a ∈ store.buildable metric build.known
      (states.flatMap fun item => IterOrder.list item.2.boundary.keys) ↔
      FirstMet edge within metric old headIds (k + 1) a := by
    intro a
    unfold FirstMet
    rw [first_succ_iff, buildable_flatMap, mem_flatMap]
    constructor
    · rintro ⟨item, listed, member⟩
      obtain ⟨rim, isUnbuilt⟩ := (via item listed a).mp member
      obtain ⟨before, fresh⟩ := (unbuilt a).mp isUnbuilt
      exact ⟨⟨item.1, (heads item.1).mp (mem_map_of_mem listed), before, rim⟩, fresh⟩
    · rintro ⟨⟨g, metG, before, rim⟩, fresh⟩
      obtain ⟨item, listed, rfl⟩ := mem_map.mp ((heads g).mpr metG)
      exact ⟨item, listed, (via item listed a).mpr ⟨rim, (unbuilt a).mpr ⟨before, fresh⟩⟩⟩
  refine ⟨runs, met, fun nodup => ?_⟩
  rw [buildable_flatMap, nodup_flatMap_iff (distinct nodup) fun item _ =>
    nodup_buildable (IterOrder.nodup_list item.2.boundary.keys)]
  constructor
  · intro shared a first source other leads leadsOther
    have isUnbuilt := (serves.mem_buildable.mp ((met a).mpr first)).2
    cases source with
    | given i => exact leads.elim
    | commit g =>
      cases other with
      | given j => exact leadsOther.elim
      | commit g' =>
        obtain ⟨item, listed, rfl⟩ := mem_map.mp ((heads g).mpr leads.1)
        obtain ⟨item', listed', rfl⟩ := mem_map.mp ((heads g').mpr leadsOther.1)
        rw [shared item listed item' listed' a ((via item listed a).mpr ⟨leads.2, isUnbuilt⟩)
          ((via item' listed' a).mpr ⟨leadsOther.2, isUnbuilt⟩)]
  · intro single item listed item' listed' a member member'
    have first : FirstMet edge within metric old headIds (k + 1) a := by
      rw [← met, buildable_flatMap]
      exact mem_flatMap.mpr ⟨item, listed, member⟩
    have leadOf : ∀ item ∈ states,
        a ∈ store.buildable metric build.known (IterOrder.list item.2.boundary.keys) →
        Lead edge within metric old headIds (k + 1) (.commit item.1) a := fun item listed member =>
      ⟨(heads item.1).mp (mem_map_of_mem listed), ((via item listed a).mp member).1⟩
    exact Source.commit.inj (single a first _ _ (leadOf item listed member)
      (leadOf item' listed' member'))

variable (inv : LevelInv store edge within metric old headIds k build) (serves : store.Serves edge within)

include inv serves

theorem LevelInv.exists_heads (sited : HorizonAt edge within metric old headIds build k horizon) :
    ∃ heads, store.parHorizon metric build.known horizon = .ok heads ∧
      (∀ a ∈ heads, a ∉ build.known.keys ∧ 0 < metric a) ∧
      (∀ a, a ∈ heads.filter store.holds ↔ FirstMet edge within metric old headIds k a) ∧
      (build.freshHeads.Nodup →
        ((heads.filter store.holds).Nodup ↔ SingleLead edge within metric old headIds k)) := by
  cases k with
  | zero =>
    obtain rfl := sited
    obtain ⟨heads, runs, places, met, single⟩ := exists_heads_zero serves metric old horizon
    have started : build.known = old := by
      ext a : 1
      cases found : old.get? a with
      | some state => exact inv.drafted.kept a state found
      | none =>
        rw [FinMap.get?_eq_none, inv.keys]
        simpa using FinMap.get?_eq_none.mp found
    rw [started]
    exact ⟨heads, runs, places, met, fun _ => single⟩
  | succ k =>
    have positive : ∀ a ∈ horizon, 0 < metric a := by
      intro a listed
      obtain ⟨states, rfl, heads, -, rims⟩ := sited
      obtain ⟨item, inStates, member⟩ := mem_flatMap.mp listed
      have rim := (rims item inStates a).mp (IterOrder.mem_list.mp member)
      have unbuilt : Unbuilt within metric old item.1 := by
        have met := ((heads item.1).mp (mem_map_of_mem inStates)).1
        cases k with
        | zero => exact met.1
        | succ k => exact met.choose_spec.2.1
      exact unbuilt.2.2.trans_le rim.choose_spec.2.2
    obtain ⟨runs, met, single⟩ := exists_heads_succ inv serves positive sited
    exact ⟨_, runs, fun a listed => (mem_headsOf.mp listed).2, met, single⟩

theorem LevelInv.step (founded : WellFounded (Function.swap edge))
    {heads : List CommitId} (places : ∀ a ∈ heads, a ∉ build.known.keys ∧ 0 < metric a)
    (met : ∀ a, a ∈ heads.filter store.holds ↔ FirstMet edge within metric old headIds k a)
    (single : build.freshHeads.Nodup →
      ((heads.filter store.holds).Nodup ↔ SingleLead edge within metric old headIds k)) :
    ∃ states, store.parStates metric build.known heads = .ok states ∧
      states.map Prod.fst = heads.filter store.holds ∧
      LevelInv store edge within metric old headIds (k + 1) (states.foldl Build.merge build) ∧
      HorizonAt edge within metric old headIds (states.foldl Build.merge build) (k + 1)
        (states.flatMap fun item => IterOrder.list item.2.boundary.keys) := by
  obtain ⟨states, runs, firsts, built⟩ := parStates_eq_ok serves founded build.known heads
    fun a listed => (places a listed).2
  have sites : ∀ item ∈ states, within item.1 ∧ 0 < metric item.1 ∧ item.1 ∉ build.known.keys := by
    intro item listed
    have present : item.1 ∈ heads.filter store.holds := firsts ▸ mem_map_of_mem listed
    obtain ⟨inHeads, found⟩ := mem_filter.mp present
    exact ⟨serves.holds_iff.mp found, (places item.1 inHeads).2, (places item.1 inHeads).1⟩
  obtain ⟨drafted, keys, fresh⟩ := foldl_merge serves founded inv.drafted states sites built build
    inv.drafted (fun _ _ found => found)
    (fun a state found unknown => absurd (FinMap.mem_keys_of_get? found) unknown)
  have unknown : ∀ a ∈ states.map Prod.fst, a ∉ build.known.keys := by
    intro a listed
    obtain ⟨item, inStates, rfl⟩ := mem_map.mp listed
    exact (sites item inStates).2.2
  have nodup : (states.foldl Build.merge build).freshHeads.Nodup ↔
      build.freshHeads.Nodup ∧ (states.map Prod.fst).Nodup := by
    rw [fresh, nodup_append]
    refine and_congr_right fun _ => and_iff_left fun a listed b inStates same => ?_
    exact unknown b inStates (same ▸ ((inv.fresh a).mp listed).1)
  refine ⟨states, runs, firsts, ⟨drafted, fun a => ?_, fun a => ?_, ?_⟩, states, rfl, fun a => ?_,
    fun distinct => (nodup.mp distinct).2, fun item listed b => ?_⟩
  · rw [keys, inv.keys, firsts, met, or_assoc]
    refine or_congr_right ?_
    constructor
    · rintro (⟨j, before, isAt⟩ | first)
      · exact ⟨j, by omega, isAt⟩
      · exact ⟨k, by omega, first.1⟩
    · rintro ⟨j, before, isAt⟩
      obtain ⟨i, le, first⟩ := exists_first isAt
      rcases Nat.lt_or_ge i k with earlier | here
      · exact Or.inl ⟨i, earlier, first.1⟩
      · obtain rfl : i = k := by omega
        exact Or.inr first
  · rw [fresh, mem_append, inv.fresh, keys]
    constructor
    · rintro (⟨isKey, isFresh⟩ | listed)
      · exact ⟨Or.inl isKey, isFresh⟩
      · exact ⟨Or.inr listed, fun before => unknown a listed ((inv.keys a).mpr (Or.inl before))⟩
    · rintro ⟨isKey | listed, isFresh⟩
      · exact Or.inl ⟨isKey, isFresh⟩
      · exact Or.inr listed
  · rw [nodup, firsts]
    constructor
    · rintro ⟨nodupBefore, nodupHere⟩ j before
      rcases Nat.lt_or_ge j k with earlier | here
      · exact inv.single.mp nodupBefore j earlier
      · obtain rfl : j = k := by omega
        exact (single nodupBefore).mp nodupHere
    · intro all
      have nodupBefore := inv.single.mpr fun j before => all j (by omega)
      exact ⟨nodupBefore, (single nodupBefore).mpr (all k (by omega))⟩
  · rw [firsts, met]
  · obtain ⟨here, positive, -⟩ := sites item listed
    obtain ⟨state, builtState, -, boundary, -⟩ :=
      fragment_eq_ok serves founded here positive build.known
    rw [← Except.ok.inj (builtState.symm.trans (built item listed))]
    exact boundary b

end LevelStep

/-! ### The whole run -/

theorem parLevels_nil (metric : DepthMetric) (build : Build Node) :
    ∀ fuel, store.parLevels metric fuel [] build = (build, none) := by
  have horizon : store.parHorizon metric build.known [] = .ok [] := by
    have loose : ∀ fuel, store.walkLoose metric build.known fuel ⟨∅, [], []⟩ = .ok [] := by
      intro fuel
      cases fuel <;> rfl
    unfold parHorizon unknownOf
    simp only [filter_nil, foldl_nil, loose]
  intro fuel
  cases fuel with
  | zero => rfl
  | succ fuel => simp only [parLevels, horizon, if_true]

variable (serves : store.Serves edge within) (founded : WellFounded (Function.swap edge))

include serves founded

/-- **The loop over the horizons** ends on a level where nothing is met first. -/
theorem parLevels_eq {old : FinMap CommitId (FragmentState Node)} {headIds : List CommitId} :
    ∀ fuel k horizon build, LevelInv store edge within metric old headIds k build →
      HorizonAt edge within metric old headIds build k horizon →
      (store.ids \ build.known.keys).card < fuel →
      ∃ last final, store.parLevels metric fuel horizon build = (final, none) ∧
        LevelInv store edge within metric old headIds last final ∧
        ∀ a, ¬ FirstMet edge within metric old headIds last a := by
  intro fuel
  induction fuel with
  | zero => exact fun _ _ _ _ _ impossible => absurd impossible (Nat.not_lt_zero _)
  | succ fuel ih =>
    intro k horizon build inv sited enough
    obtain ⟨heads, runs, places, met, single⟩ := inv.exists_heads serves sited
    obtain ⟨states, runsStates, firsts, next, sitedNext⟩ := inv.step serves founded places met single
    -- the level is empty, has only heads that are missing, or builds a fragment
    by_cases empty : heads = []
    · refine ⟨k, build, ?_, inv, fun a first => ?_⟩
      · simp only [parLevels, runs, empty, if_true]
      · exact absurd ((met a).mpr first) (by simp [empty])
    · have unfolded : store.parLevels metric (fuel + 1) horizon build =
          store.parLevels metric fuel (states.flatMap fun item => IterOrder.list item.2.boundary.keys)
            (states.foldl Build.merge build) := by
        simp only [parLevels, runs, if_neg empty, runsStates]
      by_cases missing : states = []
      · refine ⟨k, build, ?_, inv, fun a first => ?_⟩
        · rw [unfolded, missing]
          exact parLevels_nil metric build fuel
        · have listed := (met a).mpr first
          rw [← firsts, missing] at listed
          exact absurd listed not_mem_nil
      · rw [unfolded]
        refine ih (k + 1) _ _ next sitedNext ?_
        obtain ⟨item, listed⟩ := exists_mem_of_ne_nil states missing
        have present : item.1 ∈ heads.filter store.holds := firsts ▸ mem_map_of_mem listed
        have unknown := (places item.1 (mem_filter.mp present).1).1
        have first := (met item.1).mp present
        have built : item.1 ∈ (states.foldl Build.merge build).known.keys :=
          (next.keys item.1).mpr (Or.inr ⟨k, by omega, first.1⟩)
        have stored : item.1 ∈ store.ids := by
          have here := serves.holds_iff.mp (mem_filter.mp present).2
          obtain ⟨node, found, -⟩ := serves.found item.1 here
          exact store.mem_ids found
        have grows : build.known.keys ⊆ (states.foldl Build.merge build).known.keys := by
          intro a isKey
          rw [next.keys]
          refine ((inv.keys a).mp isKey).imp_right fun ⟨j, before, isAt⟩ => ⟨j, by omega, isAt⟩
        have smaller : store.ids \ (states.foldl Build.merge build).known.keys ⊂
            store.ids \ build.known.keys := by
          rw [Finset.ssubset_iff_of_subset (Finset.sdiff_subset_sdiff le_rfl grows)]
          exact ⟨item.1, Finset.mem_sdiff.mpr ⟨stored, unknown⟩, fun remains =>
            (Finset.mem_sdiff.mp remains).2 built⟩
        have fewer := Finset.card_lt_card smaller
        omega

theorem buildFragmentStorePar_eq_finish (headIds : List CommitId)
    (old : FinMap CommitId (FragmentState Node)) (metric : DepthMetric) :
    ∃ build : Build Node, store.buildFragmentStorePar headIds old metric =
        (build.finish.1, .ok build.finish.2) ∧ BuildResult store edge within metric old
        (fun a => ∃ k, Levels.At (FirstLevel edge within metric old headIds)
          (NextLevel edge within metric old) k a) build ∧
      (build.freshHeads.Nodup ↔ ∀ k, SingleLead edge within metric old headIds k) := by
  have start : LevelInv store edge within metric old headIds 0 ⟨old, []⟩ :=
    ⟨Drafted.start store edge metric old, by simp, by simp, by simp⟩
  obtain ⟨last, build, runs, inv, ended⟩ := parLevels_eq serves founded (store.ids.card + 1) 0 headIds
    ⟨old, []⟩ start rfl (Nat.lt_succ_of_le (Finset.card_le_card Finset.sdiff_subset))
  refine ⟨build, ?_, ⟨fun a => ?_, inv.drafted, inv.fresh⟩, ?_⟩
  · unfold buildFragmentStorePar
    rw [runs]
    rfl
  · rw [inv.keys]
    refine or_congr_right ⟨fun ⟨j, _, isAt⟩ => ⟨?_, j, isAt⟩, fun ⟨_, j, isAt⟩ => ?_⟩
    · cases j with
      | zero => exact isAt.1.2
      | succ j => exact isAt.choose_spec.2.1.2
    · exact exists_lt_of_no_first ended isAt
  · rw [inv.single]
    refine ⟨fun single k a first => ?_, fun single j _ => single j⟩
    obtain ⟨i, before, isAt⟩ := exists_lt_of_no_first ended first.1
    have here : k < last := by
      by_contra later
      exact first.2 i (by omega) isAt
    exact single k here a first

end CommitStore

end Subduction
