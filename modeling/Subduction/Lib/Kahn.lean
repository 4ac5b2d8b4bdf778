/-
**Sorting a graph by its counters of open dependencies.**

A ledger has for every item the number of its dependencies and the list of its dependents. The sort takes
items without open dependencies from the head of a queue, lowers the counters of their dependents, and
appends those whose counter reaches zero. A counter that would fall below zero ends the sort.

* **`sort_spec`** — no counter falls below zero, and the line that is left at the end is an order.
* **`Line.length_eq_iff`** — it has every item exactly when the graph has no cycle.
* **`Line.before_of_deep`** — items with longer chains of dependencies come later.
* **`Line.last_of_trail`** — the items of a chain come last among a family of items with chains of the
  same length, when they have the largest numbers of it.

The invariant is `Line`.
-/

import Subduction.Lib.Strata
import Mathlib.Data.List.Dedup
import Mathlib.Order.Defs.LinearOrder

namespace Subduction

open List

namespace Kahn

open Relation

variable {α : Type*}

/-! ### Positions in a list -/

section Before

variable [DecidableEq α]

def Before (list : List α) (first second : α) : Prop :=
  list.idxOf first < list.idxOf second ∧ second ∈ list

instance (list : List α) (first second : α) : Decidable (Before list first second) :=
  inferInstanceAs (Decidable (_ ∧ _))

namespace Before

variable {list suffix : List α} {first second third : α}

theorem mem_left (before : Before list first second) : first ∈ list :=
  idxOf_lt_length_iff.mp (before.1.trans (idxOf_lt_length_of_mem before.2))

theorem trans (one : Before list first second) (two : Before list second third) :
    Before list first third := ⟨one.1.trans two.1, two.2⟩

theorem irrefl : ¬ Before list first first := fun before => lt_irrefl _ before.1

theorem append (before : Before list first second) : Before (list ++ suffix) first second := by
  refine ⟨?_, mem_append_left _ before.2⟩
  rw [idxOf_append_of_mem before.mem_left, idxOf_append_of_mem before.2]
  exact before.1

theorem of_append (before : Before (list ++ suffix) first second) (member : second ∈ list) :
    Before list first second := by
  refine ⟨?_, member⟩
  have less := before.1
  rw [idxOf_append_of_mem member] at less
  by_cases isFirst : first ∈ list
  · rwa [idxOf_append_of_mem isFirst] at less
  · rw [idxOf_append_of_notMem isFirst] at less
    have bound := idxOf_lt_length_of_mem member
    omega

theorem of_mem (member : first ∈ list) (isNew : second ∉ list) (isSuffix : second ∈ suffix) :
    Before (list ++ suffix) first second := by
  refine ⟨?_, mem_append_right _ isSuffix⟩
  rw [idxOf_append_of_mem member, idxOf_append_of_notMem isNew]
  have bound := idxOf_lt_length_of_mem member
  omega

theorem suffix_of_notMem (before : Before suffix first second) (firstNew : first ∉ list)
    (secondNew : second ∉ list) : Before (list ++ suffix) first second := by
  refine ⟨?_, mem_append_right _ before.2⟩
  rw [idxOf_append_of_notMem firstNew, idxOf_append_of_notMem secondNew]
  exact Nat.add_lt_add_left before.1 _

theorem idxOf_map {β : Type*} [DecidableEq β] {change : α → β} (isFirst : first ∈ list)
    (injective : Set.InjOn change {entry | entry ∈ list}) :
    (list.map change).idxOf (change first) = list.idxOf first := by
  induction list with
  | nil => cases isFirst
  | cons head rest ih =>
    rw [map_cons]
    by_cases same : head = first
    · rw [same, idxOf_cons_self, idxOf_cons_self]
    · have different : change head ≠ change first := fun equal =>
        same (injective mem_cons_self isFirst equal)
      have later : first ∈ rest := (mem_cons.mp isFirst).resolve_left (Ne.symm same)
      rw [idxOf_cons_ne _ same, idxOf_cons_ne _ different]
      rw [ih later (injective.mono fun _ member => mem_cons_of_mem head member)]

theorem map_iff {β : Type*} [DecidableEq β] {change : α → β} (isFirst : first ∈ list) (isSecond : second ∈ list)
    (injective : Set.InjOn change {entry | entry ∈ list}) :
    Before (list.map change) (change first) (change second) ↔ Before list first second := by
  unfold Before
  rw [idxOf_map isFirst injective, idxOf_map isSecond injective]
  exact and_congr_right fun _ => iff_of_true (mem_map_of_mem isSecond) isSecond

theorem of_pairwise [LT α] [Std.Asymm (α := α) (· < ·)] (ascending : list.Pairwise (· < ·))
    (isFirst : first ∈ list) (isSecond : second ∈ list) (less : first < second) :
    Before list first second := by
  have boundFirst := idxOf_lt_length_of_mem isFirst
  have boundSecond := idxOf_lt_length_of_mem isSecond
  refine ⟨?_, isSecond⟩
  rcases Nat.lt_trichotomy (list.idxOf first) (list.idxOf second) with before | same | after
  · exact before
  · obtain rfl := (idxOf_inj isFirst).mp same
    exact absurd less (Std.Asymm.asymm _ _ less)
  · have other := pairwise_iff_getElem.mp ascending _ _ boundSecond boundFirst after
    rw [getElem_idxOf, getElem_idxOf] at other
    exact absurd less (Std.Asymm.asymm _ _ other)

end Before

end Before

/-! ### Chains of dependencies -/

section Chains

variable {depends : α → α → Prop}

/-- The item has a chain of dependencies of the given length. -/
def Deep (depends : α → α → Prop) : Nat → α → Prop
  | 0, _ => True
  | steps + 1, item => ∃ dependency, depends dependency item ∧ Deep depends steps dependency

theorem Deep.of_le {item : α} {steps fewer : Nat} (deep : Deep depends steps item) (le : fewer ≤ steps) :
    Deep depends fewer item := by
  induction fewer generalizing item steps with
  | zero => exact trivial
  | succ fewer ih =>
    cases steps with
    | zero => exact absurd le (Nat.not_succ_le_zero fewer)
    | succ steps =>
      obtain ⟨dependency, isEdge, deep⟩ := deep
      exact ⟨dependency, isEdge, ih deep (Nat.le_of_succ_le_succ le)⟩

theorem deep_iff_le {item : α} {longest steps : Nat} (deep : Deep depends longest item)
    (shallow : ¬ Deep depends (longest + 1) item) : Deep depends steps item ↔ steps ≤ longest := by
  refine ⟨fun deepSteps => ?_, fun le => deep.of_le le⟩
  by_contra more
  exact shallow (deepSteps.of_le (Nat.lt_of_not_le more))

/-- A chain of dependencies, from an item down. -/
inductive Trail (depends : α → α → Prop) : Nat → α → List α → Prop
  | base (item : α) : Trail depends 0 item [item]
  | step {steps : Nat} {dependency item : α} {below : List α} (isEdge : depends dependency item)
      (trail : Trail depends steps dependency below) : Trail depends (steps + 1) item (item :: below)

theorem exists_trail {steps : Nat} {item : α} (deep : Deep depends steps item) :
    ∃ below, Trail depends steps item below := by
  induction steps generalizing item with
  | zero => exact ⟨[item], .base item⟩
  | succ steps ih =>
    obtain ⟨dependency, isEdge, deep⟩ := deep
    obtain ⟨below, trail⟩ := ih deep
    exact ⟨item :: below, .step isEdge trail⟩

namespace Trail

variable {steps : Nat} {top : α} {below : List α}

variable (trail : Trail depends steps top below)

include trail

theorem deep : Deep depends steps top := by
  induction trail with
  | base item => exact trivial
  | step isEdge _ ih => exact ⟨_, isEdge, ih⟩

theorem forall_mem {holds : α → Prop}
    (keeps : ∀ dependency item, depends dependency item → holds dependency) (isTop : holds top) :
    ∀ item ∈ below, holds item := by
  induction trail with
  | base top =>
    intro item member
    rwa [mem_singleton.mp member]
  | step isEdge _ ih =>
    intro item member
    rcases mem_cons.mp member with rfl | member
    · exact isTop
    · exact ih (keeps _ _ isEdge) item member

theorem deep_of_mem {item : α} (member : item ∈ below) {length : Nat}
    (deep : Deep depends length item) : Deep depends length top := by
  induction trail with
  | base top => rwa [← mem_singleton.mp member]
  | @step _ _ top _ isEdge _ ih =>
    rcases mem_cons.mp member with rfl | member
    · exact deep
    · have longer : Deep depends (length + 1) top := ⟨_, isEdge, ih member⟩
      exact longer.of_le (Nat.le_succ length)

/-- The items of a longest chain have longest chains of different lengths. -/
theorem eq_of_deep_iff (longest : ¬ Deep depends (steps + 1) top)
    {first second : α} (isFirst : first ∈ below) (isSecond : second ∈ below)
    (same : ∀ length, Deep depends length first ↔ Deep depends length second) : first = second := by
  induction trail with
  | base top => rw [mem_singleton.mp isFirst, mem_singleton.mp isSecond]
  | @step steps dependency top below isEdge trail ih =>
    have shallow : ¬ Deep depends (steps + 1) dependency := fun deep => longest ⟨dependency, isEdge, deep⟩
    have deepTop : Deep depends (steps + 1) top := ⟨dependency, isEdge, trail.deep⟩
    rcases mem_cons.mp isFirst with rfl | firstBelow
    · rcases mem_cons.mp isSecond with rfl | secondBelow
      · rfl
      · exact absurd (trail.deep_of_mem secondBelow ((same _).mp deepTop)) shallow
    · rcases mem_cons.mp isSecond with rfl | secondBelow
      · exact absurd (trail.deep_of_mem firstBelow ((same _).mpr deepTop)) shallow
      · exact ih shallow firstBelow secondBelow

end Trail

variable {β : Type*} {other : β → β → Prop} (names : β → α → Prop)

variable (found : ∀ dependency item name, depends dependency item → names name item → ∃ link, names link dependency ∧ other link name) {steps : Nat}

include found

theorem Deep.rename {item : α} {name : β}
    (deep : Deep depends steps item) (isName : names name item) : Deep other steps name := by
  induction steps generalizing item name with
  | zero => exact trivial
  | succ steps ih =>
    obtain ⟨dependency, isEdge, deep⟩ := deep
    obtain ⟨link, isLink, isOther⟩ := found dependency item name isEdge isName
    exact ⟨link, isOther, ih deep isLink⟩

theorem Trail.rename {top : α} {below : List α} {name : β}
    (trail : Trail depends steps top below) (isName : names name top) :
    ∃ renamed, Trail other steps name renamed ∧ ∀ entry ∈ renamed, ∃ item ∈ below, names entry item := by
  induction trail generalizing name with
  | base top =>
    refine ⟨[name], .base name, fun entry member => ⟨top, mem_cons_self, ?_⟩⟩
    rwa [mem_singleton.mp member]
  | step isEdge _ ih =>
    obtain ⟨link, isLink, isOther⟩ := found _ _ name isEdge isName
    obtain ⟨renamed, trail, isItem⟩ := ih isLink
    refine ⟨name :: renamed, .step isOther trail, fun entry member => ?_⟩
    rcases mem_cons.mp member with rfl | member
    · exact ⟨_, mem_cons_self, isName⟩
    · obtain ⟨item, isBelow, isEntry⟩ := isItem entry member
      exact ⟨item, mem_cons_of_mem _ isBelow, isEntry⟩

end Chains

/-! ### The ledger -/

/-- The counters of open dependencies, and the dependents of every item. -/
structure Ledger (α : Type*) where
  inDegree : α → Nat
  dependents : α → List α

section Queue

variable [DecidableEq α]

namespace Ledger

def empty : Ledger α := ⟨fun _ => 0, fun _ => []⟩

def link (ledger : Ledger α) (dependency item : α) : Ledger α where
  inDegree := Function.update ledger.inDegree item (ledger.inDegree item + 1)
  dependents := Function.update ledger.dependents dependency (ledger.dependents dependency ++ [item])

/-- **The ledger of a list of edges**, each from a dependency to its dependent. -/
structure Records (ledger : Ledger α) (edges : List (α × α)) : Prop where
  inDegree_eq : ∀ item, ledger.inDegree item = edges.countP fun edge => edge.2 = item
  dependents_eq : ∀ dependency,
    ledger.dependents dependency = (edges.filter fun edge => edge.1 = dependency).map Prod.snd

theorem Records.empty : Records (Ledger.empty : Ledger α) [] := ⟨fun _ => rfl, fun _ => rfl⟩

theorem Records.link {ledger : Ledger α} {edges : List (α × α)} (records : ledger.Records edges)
    (dependency item : α) : (ledger.link dependency item).Records (edges ++ [(dependency, item)]) := by
  refine ⟨fun other => ?_, fun other => ?_⟩
  · rw [countP_append, countP_singleton, ← records.inDegree_eq]
    by_cases same : other = item
    · subst same
      simp [Ledger.link]
    · simp [Ledger.link, Function.update_of_ne same, Ne.symm same]
  · rw [filter_append, map_append, ← records.dependents_eq]
    by_cases same : other = dependency
    · subst same
      simp [Ledger.link]
    · simp [Ledger.link, Function.update_of_ne same, Ne.symm same]

def linkAll (ledger : Ledger α) (dependencies : List α) (item : α) : Ledger α :=
  dependencies.foldl (fun ledger dependency => ledger.link dependency item) ledger

theorem Records.linkAll {ledger : Ledger α} {edges : List (α × α)} (records : ledger.Records edges)
    (dependencies : List α) (item : α) :
    (ledger.linkAll dependencies item).Records (edges ++ dependencies.map fun dependency => (dependency, item)) := by
  induction dependencies generalizing ledger edges with
  | nil => rwa [map_nil, append_nil]
  | cons dependency rest ih =>
    have linked := ih (records.link dependency item)
    rwa [append_assoc, singleton_append] at linked

/-- Link a dependency that was not seen before. -/
def linkOnce (item : α) (state : Ledger α × Finset α) (dependency : α) : Ledger α × Finset α :=
  if dependency ∈ state.2 then state else (state.1.link dependency item, insert dependency state.2)

/-- What a list adds to what was seen before. -/
def unseen : Finset α → List α → List α
  | _, [] => []
  | seen, dependency :: rest =>
    if dependency ∈ seen then unseen seen rest else dependency :: unseen (insert dependency seen) rest

theorem mem_unseen {dependencies : List α} {dependency : α} : ∀ {seen : Finset α},
    dependency ∈ unseen seen dependencies ↔ dependency ∈ dependencies ∧ dependency ∉ seen := by
  induction dependencies with
  | nil =>
    intro seen
    simp [unseen]
  | cons head rest ih =>
    intro seen
    unfold unseen
    by_cases known : head ∈ seen
    · rw [if_pos known, ih]
      refine and_congr_left fun isNew => ?_
      rw [mem_cons, or_iff_right]
      rintro rfl
      exact isNew known
    · rw [if_neg known, mem_cons, ih, mem_cons, Finset.mem_insert]
      by_cases same : dependency = head
      · subst same
        simp [known]
      · simp [same]

theorem foldl_linkOnce (item : α) (dependencies : List α) : ∀ (ledger : Ledger α) (seen : Finset α),
    (dependencies.foldl (linkOnce item) (ledger, seen)).1 = ledger.linkAll (unseen seen dependencies) item := by
  induction dependencies with
  | nil => exact fun _ _ => rfl
  | cons dependency rest ih =>
    intro ledger seen
    rw [foldl_cons]
    unfold linkOnce unseen
    by_cases known : dependency ∈ seen
    · rw [if_pos known, if_pos known]
      exact ih ledger seen
    · rw [if_neg known, if_neg known]
      exact ih (ledger.link dependency item) (insert dependency seen)

/-- **The ledger of the first items**: their dependencies, item after item. -/
def Lists (ledger : Ledger Nat) (depends : Nat → Nat → Prop) (bound : Nat) : Prop :=
  ∃ edges, ledger.Records edges ∧ (edges.Pairwise fun edge next => edge.2 ≤ next.2) ∧
    ∀ dependency item, (dependency, item) ∈ edges ↔ item < bound ∧ depends dependency item

theorem Lists.empty (depends : Nat → Nat → Prop) : Lists Ledger.empty depends 0 :=
  ⟨[], .empty, List.Pairwise.nil, fun _ _ => by simp⟩

theorem Lists.linkAll {ledger : Ledger Nat} {depends : Nat → Nat → Prop} {bound : Nat}
    (lists : ledger.Lists depends bound) {dependencies : List Nat}
    (isDependency : ∀ dependency, dependency ∈ dependencies ↔ depends dependency bound) :
    (ledger.linkAll dependencies bound).Lists depends (bound + 1) := by
  obtain ⟨edges, records, listed, isEdge⟩ := lists
  refine ⟨_, records.linkAll dependencies bound, ?_, fun dependency item => ?_⟩
  · refine pairwise_append.mpr ⟨listed, ?_, ?_⟩
    · rw [pairwise_map]
      exact pairwise_of_forall fun _ _ => le_refl bound
    · rintro ⟨dependency, item⟩ earlier edge new
      obtain ⟨_, _, rfl⟩ := mem_map.mp new
      exact ((isEdge dependency item).mp earlier).1.le
  · rw [mem_append, isEdge, mem_map]
    constructor
    · rintro (⟨less, depends⟩ | ⟨other, member, same⟩)
      · exact ⟨Nat.lt_succ_of_lt less, depends⟩
      · obtain ⟨rfl, rfl⟩ := Prod.mk.inj same
        exact ⟨Nat.lt_succ_self _, (isDependency _).mp member⟩
    · rintro ⟨less, depends⟩
      rcases Nat.lt_succ_iff_lt_or_eq.mp less with less | rfl
      · exact Or.inl ⟨less, depends⟩
      · exact Or.inr ⟨dependency, (isDependency dependency).mpr depends, rfl⟩

theorem Lists.foldl_zipIdx {V : Type*} {depends : Nat → Nat → Prop} {base : Nat}
    {step : Ledger Nat → V × Nat → Ledger Nat} (values : List V)
    (keeps : ∀ ledger value index, values[index]? = some value → ledger.Lists depends (base + index) →
      (step ledger (value, index)).Lists depends (base + index + 1)) :
    ∀ {ledger : Ledger Nat}, ledger.Lists depends base →
      (values.zipIdx.foldl step ledger).Lists depends (base + values.length) := by
  have general : ∀ (rest : List V) (start : Nat) (ledger : Ledger Nat),
      (∀ index, values[start + index]? = rest[index]?) → ledger.Lists depends (base + start) →
      ((rest.zipIdx start).foldl step ledger).Lists depends (base + start + rest.length) := by
    intro rest
    induction rest with
    | nil => exact fun _ _ _ lists => lists
    | cons value rest ih =>
      intro start ledger same lists
      rw [zipIdx_cons, foldl_cons, length_cons, Nat.add_comm rest.length, ← Nat.add_assoc,
        Nat.add_assoc base]
      refine ih (start + 1) _ (fun index => ?_) (keeps ledger value start (same 0) lists)
      rw [Nat.add_assoc, Nat.add_comm 1]
      exact same (index + 1)
  intro ledger lists
  exact general values 0 ledger (fun index => by rw [Nat.zero_add]) lists

end Ledger

/-! ### The sort -/

/-- Lower the counter of every dependent; one that reaches zero joins the queue. -/
def release (counts : α → Nat) (queue : List α) : List α → Option ((α → Nat) × List α)
  | [] => some (counts, queue)
  | item :: rest =>
    if counts item = 0 then none
    else
      let count := counts item - 1
      release (Function.update counts item count) (if count = 0 then queue ++ [item] else queue) rest

/-- Take items from the queue until it is empty. Nothing is returned when a counter would fall below zero,
or when the queue outlasts the fuel. -/
def drain (dependents : α → List α) : Nat → (α → Nat) → List α → List α → Option (List α)
  | _, _, [], order => some order
  | 0, _, _ :: _, _ => none
  | fuel + 1, counts, item :: queue, order =>
    match release counts queue (dependents item) with
    | none => none
    | some (counts, queue) => drain dependents fuel counts queue (order ++ [item])

/-- The sort: the queue starts with the items that have no dependency. -/
def sort (nodes : List α) (ledger : Ledger α) : Option (List α) :=
  drain ledger.dependents nodes.length ledger.inDegree
    (nodes.filter fun item => ledger.inDegree item = 0) []

/-- **What is released**: the items whose counter is their number in the list, at their last place. -/
theorem release_eq (items : List α) : ∀ (counts : α → Nat) (queue : List α),
    (∀ item, items.count item ≤ counts item) →
    release counts queue items = some (fun item => counts item - items.count item,
      queue ++ items.dedup.filter fun item => counts item = items.count item) := by
  induction items with
  | nil =>
    intro counts queue _
    simp [release]
  | cons head rest ih =>
    intro counts queue enough
    have enoughHead := enough head
    rw [count_cons_self] at enoughHead
    have step (item : α) : Function.update counts head (counts head - 1) item =
        if item = head then counts head - 1 else counts item := by
      by_cases same : item = head
      · subst same
        simp
      · simp [same]
    have countCons (item : α) :
        (head :: rest).count item = if item = head then rest.count head + 1 else rest.count item := by
      by_cases same : item = head
      · subst same
        simp
      · rw [count_cons_of_ne (Ne.symm same), if_neg same]
    have left (item : α) : Function.update counts head (counts head - 1) item - rest.count item =
        counts item - (head :: rest).count item := by
      rw [step, countCons]
      by_cases same : item = head
      · subst same
        simp only [if_true]
        omega
      · rw [if_neg same, if_neg same]
    have reached (item : α) : (Function.update counts head (counts head - 1) item = rest.count item) =
        (counts item = (head :: rest).count item) := by
      rw [step, countCons]
      by_cases same : item = head
      · subst same
        simp only [if_true]
        exact propext (by omega)
      · rw [if_neg same, if_neg same]
    unfold release
    rw [if_neg (by omega)]
    dsimp only
    rw [ih _ _ ?enough]
    · simp only [left, reached]
      congr 2
      by_cases last : counts head - 1 = 0
      · -- the counter reaches zero here, so the item does not occur again
        have absent : head ∉ rest := count_eq_zero.mp (by omega)
        have isOne : counts head = (head :: rest).count head := by
          rw [count_cons_self]
          omega
        rw [if_pos last, dedup_cons_of_notMem absent,
          filter_cons_of_pos (by simpa using isOne), append_assoc, singleton_append]
      · rw [if_neg last]
        by_cases again : head ∈ rest
        · rw [dedup_cons_of_mem again]
        · have notOne : counts head ≠ (head :: rest).count head := by
            rw [count_cons_self, count_eq_zero.mpr again]
            omega
          rw [dedup_cons_of_notMem again, filter_cons_of_neg (by simpa using notOne)]
    case enough =>
      intro item
      have enoughItem := enough item
      rw [countCons] at enoughItem
      rw [step]
      by_cases same : item = head
      · subst same
        simp only [if_true] at enoughItem ⊢
        omega
      · rw [if_neg same] at enoughItem ⊢
        exact enoughItem

end Queue

/-! ### The line -/

section Line

variable [LinearOrder α]

abbrev Linked (edges : List (α × α)) (dependency item : α) : Prop := (dependency, item) ∈ edges

/-- **What holds between two steps.** The items taken and the queue form one line: -/
structure Line (nodes : List α) (edges : List (α × α)) (taken queue : List α) : Prop where
  nodup : (taken ++ queue).Nodup
  /-- an item is in it as soon as all its dependencies were taken, -/
  mem_iff : ∀ item, item ∈ taken ++ queue ↔
    item ∈ nodes ∧ ∀ dependency, (dependency, item) ∈ edges → dependency ∈ taken
  /-- it comes after them, -/
  ordered : ∀ dependency item, (dependency, item) ∈ edges → item ∈ taken ++ queue →
    Before (taken ++ queue) dependency item
  /-- the items without dependencies come in their order, -/
  first : ∀ item other, item ∈ nodes → other ∈ nodes → (∀ dependency, (dependency, item) ∉ edges) →
    (∀ dependency, (dependency, other) ∉ edges) → item < other → Before (taken ++ queue) item other
  /-- and an item comes before another one when that has a dependency that none of the first one's comes
  after; two items with the same last dependency come in their order. -/
  disciplined : ∀ item other last, item ∈ nodes → other ∈ taken ++ queue → (last, other) ∈ edges →
    (∀ dependency, (dependency, item) ∈ edges →
      dependency = last ∨ Before (taken ++ queue) dependency last) →
    ((last, item) ∈ edges → item < other) → Before (taken ++ queue) item other

namespace Line

variable {nodes : List α} {edges : List (α × α)} {taken queue order : List α}

theorem head_notMem {head : α} (line : Line nodes edges taken (head :: queue)) : head ∉ taken := by
  have nodup := line.nodup
  rw [nodup_append'] at nodup
  exact fun member => nodup.2.2 member mem_cons_self

/-- An item outside the line whose dependencies are taken, now with the head, depends on the head. -/
theorem head_edge {head item : α} (line : Line nodes edges taken (head :: queue)) (isNode : item ∈ nodes)
    (isNew : item ∉ taken ++ head :: queue)
    (closed : ∀ dependency, (dependency, item) ∈ edges → dependency ∈ taken ++ [head]) :
    (head, item) ∈ edges := by
  by_contra notEdge
  refine isNew ((line.mem_iff item).mpr ⟨isNode, fun dependency isEdge => ?_⟩)
  rcases mem_append.mp (closed dependency isEdge) with isTaken | isHead
  · exact isTaken
  · rw [mem_singleton.mp isHead] at isEdge
    exact absurd isEdge notEdge

theorem start (ascending : nodes.Pairwise (· < ·)) {free : List α}
    (isFree : ∀ item, item ∈ free ↔ item ∈ nodes ∧ ∀ dependency, (dependency, item) ∉ edges)
    (sublist : free.Sublist nodes) : Line nodes edges [] free := by
  have ascendingFree := ascending.sublist sublist
  refine ⟨?_, ?_, ?_, ?_, ?_⟩
  · exact ascendingFree.imp fun less => ne_of_lt less
  · intro item
    rw [nil_append, isFree]
    simp only [not_mem_nil]
  · intro dependency item isEdge member
    exact absurd isEdge (((isFree item).mp member).2 dependency)
  · intro item other isItem isOther itemFree otherFree less
    exact .of_pairwise ascendingFree ((isFree item).mpr ⟨isItem, itemFree⟩)
      ((isFree other).mpr ⟨isOther, otherFree⟩) less
  · intro item other last _ member isEdge
    exact absurd isEdge (((isFree other).mp member).2 last)

/-- **One step**: the head of the queue is taken, and what it was the last open dependency of joins the
queue in ascending order. -/
theorem step {head : α} (line : Line nodes edges taken (head :: queue)) {freed : List α}
    (ascending : freed.Pairwise (· < ·))
    (isFreed : ∀ item, item ∈ freed ↔ item ∈ nodes ∧ item ∉ taken ++ head :: queue ∧
      ∀ dependency, (dependency, item) ∈ edges → dependency ∈ taken ++ [head]) :
    Line nodes edges (taken ++ [head]) (queue ++ freed) := by
  have grown : taken ++ [head] ++ (queue ++ freed) = (taken ++ head :: queue) ++ freed := by simp
  have isTaken {item : α} (member : item ∈ taken ++ [head]) : item ∈ taken ++ head :: queue := by
    simp only [mem_append, mem_cons, not_mem_nil, or_false] at member ⊢
    tauto
  -- an item that joins now has the head among its dependencies
  have fromHead {item : α} (member : item ∈ freed) : (head, item) ∈ edges := by
    obtain ⟨isNode, isNew, closed⟩ := (isFreed item).mp member
    exact line.head_edge isNode isNew closed
  refine ⟨?_, ?_, ?_, ?_, ?_⟩
  · rw [grown]
    refine nodup_append'.mpr ⟨line.nodup, ascending.imp fun less => ne_of_lt less, ?_⟩
    exact fun item earlier member => ((isFreed item).mp member).2.1 earlier
  · intro item
    rw [grown, mem_append, isFreed]
    constructor
    · rintro (earlier | ⟨isNode, -, open_⟩)
      · obtain ⟨isNode, open_⟩ := (line.mem_iff item).mp earlier
        exact ⟨isNode, fun dependency isEdge => mem_append_left _ (open_ dependency isEdge)⟩
      · exact ⟨isNode, open_⟩
    · rintro ⟨isNode, open_⟩
      by_cases earlier : item ∈ taken ++ head :: queue
      · exact Or.inl earlier
      · exact Or.inr ⟨isNode, earlier, open_⟩
  · intro dependency item isEdge member
    rw [grown] at member ⊢
    by_cases earlier : item ∈ taken ++ head :: queue
    · exact (line.ordered dependency item isEdge earlier).append
    · have isNew := (mem_append.mp member).resolve_left earlier
      exact .of_mem (isTaken (((isFreed item).mp isNew).2.2 dependency isEdge)) earlier isNew
  · intro item other isItem isOther itemFree otherFree less
    rw [grown]
    exact (line.first item other isItem isOther itemFree otherFree less).append
  · intro item other last isItem isOther isEdge before less
    rw [grown] at isOther before ⊢
    by_cases earlier : other ∈ taken ++ head :: queue
    · have isLast : last ∈ taken ++ head :: queue := (line.ordered last other isEdge earlier).mem_left
      refine (line.disciplined item other last isItem earlier isEdge (fun dependency isDependency => ?_)
        less).append
      exact (before dependency isDependency).imp_right fun before => before.of_append isLast
    · have isNew := (mem_append.mp isOther).resolve_left earlier
      have isLast : last ∈ taken ++ [head] := ((isFreed other).mp isNew).2.2 last isEdge
      -- no dependency of the first item comes after the head
      have closed (dependency : α) (isDependency : (dependency, item) ∈ edges) :
          dependency ∈ taken ++ [head] := by
        rcases before dependency isDependency with rfl | before
        · exact isLast
        · rw [show taken ++ head :: queue ++ freed = taken ++ [head] ++ (queue ++ freed) from grown.symm]
            at before
          exact (before.of_append isLast).mem_left
      by_cases itemEarlier : item ∈ taken ++ head :: queue
      · exact .of_mem itemEarlier earlier isNew
      · have itemNew : item ∈ freed := (isFreed item).mpr ⟨isItem, itemEarlier, closed⟩
        -- both join now, so the head is the last dependency of both
        have isHead : head = last := by
          rcases before head (fromHead itemNew) with same | before
          · exact same
          · have before : Before (taken ++ [head] ++ (queue ++ freed)) head last := by rwa [grown]
            rcases mem_append.mp isLast with earlierLast | same
            · have inside := (before.of_append isLast).of_append earlierLast
              exact absurd inside.mem_left line.head_notMem
            · exact (mem_singleton.mp same).symm
        subst isHead
        exact (Before.of_pairwise ascending itemNew isNew (less (fromHead itemNew))).suffix_of_notMem
          itemEarlier earlier

/-! ### At the end -/

variable (line : Line nodes edges order [])

include line

theorem length_eq_iff (distinct : nodes.Nodup)
    (inside : ∀ edge ∈ edges, edge.1 ∈ nodes ∧ edge.2 ∈ nodes) : order.length = nodes.length ↔
      ∀ item, ¬ TransGen (Linked edges) item item := by
  have mem_iff := line.mem_iff
  have nodup := line.nodup
  have ordered := line.ordered
  simp only [append_nil] at mem_iff nodup ordered
  have subset : order ⊆ nodes := fun item member => ((mem_iff item).mp member).1
  constructor
  · intro full item cycle
    have every (item : α) (isNode : item ∈ nodes) : item ∈ order :=
      ((nodup.subperm subset).perm_of_length_le full.ge).mem_iff.mpr isNode
    have before {first last : α} (path : TransGen (Linked edges) first last) :
        Before order first last := by
      induction path with
      | single isEdge => exact ordered _ _ isEdge (every _ (inside _ isEdge).2)
      | tail _ isEdge ih => exact ih.trans (ordered _ _ isEdge (every _ (inside _ isEdge).2))
    exact Before.irrefl (before cycle)
  · intro acyclic
    refine le_antisymm (nodup.subperm subset).length_le (distinct.subperm fun item isNode => ?_).length_le
    by_contra missing
    -- among the items that are left over one has only dependencies in the order
    obtain ⟨top, isTop, path, source⟩ := Strata.exists_source nodes.toFinset
      (fun dependency item (link : (dependency, item) ∈ edges ∧ dependency ∉ order) =>
        mem_toFinset.mpr (inside _ link.1).1)
      (fun item cycle => acyclic item (TransGen.mono (fun _ _ link => link.1) _ _ cycle))
      (mem_toFinset.mpr isNode)
    have isLeft : top ∉ order := by
      rcases path.cases_head with rfl | ⟨_, link, _⟩
      · exact missing
      · exact link.2
    refine isLeft ((mem_iff top).mpr ⟨mem_toFinset.mp isTop, fun dependency isEdge => ?_⟩)
    by_contra isOpen
    exact source dependency ⟨isEdge, isOpen⟩

theorem before_of_deep {steps : Nat} {item other : α}
    (isItem : item ∈ nodes) (isOther : other ∈ order) (deep : Deep (Linked edges) steps other)
    (shallow : ¬ Deep (Linked edges) steps item) (inside : ∀ edge ∈ edges, edge.1 ∈ nodes ∧ edge.2 ∈ nodes) :
    Before order item other := by
  have ordered := line.ordered
  have disciplined := line.disciplined
  simp only [append_nil] at ordered disciplined
  induction steps generalizing item other with
  | zero => exact absurd trivial shallow
  | succ steps ih =>
    obtain ⟨last, isEdge, deepLast⟩ := deep
    refine disciplined item other last isItem isOther isEdge (fun dependency isDependency => Or.inr ?_)
      fun isLast => absurd ⟨last, isLast, deepLast⟩ shallow
    refine ih (inside _ isDependency).1 (ordered _ _ isEdge isOther).mem_left deepLast fun deepDependency => ?_
    exact shallow ⟨dependency, isDependency, deepDependency⟩

theorem le_idxOf_of_deep {steps : Nat} {item : α} (isItem : item ∈ order)
    (deep : Deep (Linked edges) steps item) : steps ≤ order.idxOf item := by
  have ordered := line.ordered
  simp only [append_nil] at ordered
  induction steps generalizing item with
  | zero => exact Nat.zero_le _
  | succ steps ih =>
    obtain ⟨dependency, isEdge, deep⟩ := deep
    have before := ordered dependency item isEdge isItem
    exact (Nat.succ_le_succ (ih before.mem_left deep)).trans before.1

theorem last_of_trail (inside : ∀ edge ∈ edges, edge.1 ∈ nodes ∧ edge.2 ∈ nodes) (family : α → Prop)
    (closed : ∀ dependency item, (dependency, item) ∈ edges → family item → family dependency)
    {steps : Nat} {top : α} {below : List α} (trail : Trail (Linked edges) steps top below)
    (isTop : top ∈ order) (longest : ¬ Deep (Linked edges) (steps + 1) top)
    (small : ∀ other ∈ below, ∀ item, family item → item ≠ other →
      (∀ steps, Deep (Linked edges) steps item ↔ Deep (Linked edges) steps other) → item < other)
    {item : α} (isItem : item ∈ nodes) (isFamily : family item) (shallow : ¬ Deep (Linked edges) (steps + 1) item) :
    item = top ∨ Before order item top := by
  have mem_iff := line.mem_iff
  have ordered := line.ordered
  have first := line.first
  have disciplined := line.disciplined
  simp only [append_nil] at mem_iff ordered first disciplined
  induction trail generalizing item with
  | base top =>
    refine or_iff_not_imp_left.mpr fun different => ?_
    have less := small top mem_cons_self item isFamily different fun steps =>
      (deep_iff_le (show Deep (Linked edges) 0 item from trivial) shallow).trans
        (deep_iff_le (show Deep (Linked edges) 0 top from trivial) longest).symm
    refine first item top isItem ((mem_iff top).mp isTop).1 (fun dependency isEdge => ?_)
      (fun dependency isEdge => ?_) less
    · exact shallow ⟨dependency, isEdge, trivial⟩
    · exact longest ⟨dependency, isEdge, trivial⟩
  | @step steps last top below isEdge trail ih =>
    refine or_iff_not_imp_left.mpr fun different => ?_
    refine disciplined item top last isItem isTop isEdge (fun dependency isDependency => ?_) fun isLast => ?_
    · refine ih (ordered _ _ isEdge isTop).mem_left (fun deep => longest ⟨last, isEdge, deep⟩)
        (fun other isBelow => small other (mem_cons_of_mem top isBelow))
        (inside _ isDependency).1 (closed _ _ isDependency isFamily) ?_
      exact fun deep => shallow ⟨dependency, isDependency, deep⟩
    · have deepItem : Deep (Linked edges) (steps + 1) item := ⟨last, isLast, trail.deep⟩
      have deepTop : Deep (Linked edges) (steps + 1) top := ⟨last, isEdge, trail.deep⟩
      exact small top mem_cons_self item isFamily different fun steps =>
        (deep_iff_le deepItem shallow).trans (deep_iff_le deepTop longest).symm

end Line

/-! ### The sort keeps the line -/

section Spec

variable {nodes : List α} {edges : List (α × α)} {ledger : Ledger α}

theorem count_dependents (records : ledger.Records edges) (dependency item : α) :
    (ledger.dependents dependency).count item =
      edges.countP fun edge => edge.1 = dependency ∧ edge.2 = item := by
  rw [records.dependents_eq, List.count, countP_map, countP_filter]
  refine countP_congr fun edge _ => ?_
  simp [and_comm]

theorem countP_open (edges : List (α × α)) {taken : List α} {head : α} (isNew : head ∉ taken) (item : α) :
    (edges.countP fun edge => edge.2 = item ∧ edge.1 ∉ taken) =
      (edges.countP fun edge => edge.1 = head ∧ edge.2 = item) +
        edges.countP fun edge => edge.2 = item ∧ edge.1 ∉ taken ++ [head] := by
  induction edges with
  | nil => rfl
  | cons edge rest ih =>
    rw [countP_cons, countP_cons, countP_cons, ih]
    obtain ⟨dependency, dependent⟩ := edge
    by_cases isItem : dependent = item
    · by_cases isHead : dependency = head
      · subst isItem isHead
        simp [isNew]
        omega
      · by_cases isTaken : dependency ∈ taken
        · simp [isItem, isHead, isTaken]
        · simp [isItem, isHead, isTaken]
          omega
    · simp [isItem]

theorem countP_open_eq_zero {taken : List α} {item : α} :
    (edges.countP fun edge => edge.2 = item ∧ edge.1 ∉ taken) = 0 ↔
      ∀ dependency, (dependency, item) ∈ edges → dependency ∈ taken := by
  rw [countP_eq_zero]
  constructor
  · intro none dependency isEdge
    by_contra isOpen
    exact none _ isEdge (decide_eq_true ⟨rfl, isOpen⟩)
  · rintro closed ⟨dependency, dependent⟩ isEdge isOpen
    obtain ⟨rfl, notTaken⟩ := of_decide_eq_true isOpen
    exact notTaken (closed dependency isEdge)

theorem pairwise_freed (records : ledger.Records edges)
    (listed : edges.Pairwise fun edge next => edge.2 ≤ next.2) {head : α} {keep : α → Bool} :
    ((ledger.dependents head).dedup.filter keep).Pairwise (· < ·) := by
  have ascending : (ledger.dependents head).Pairwise (· ≤ ·) := by
    rw [records.dependents_eq, pairwise_map]
    exact listed.filter _
  have strict : (ledger.dependents head).dedup.Pairwise (· < ·) :=
    ((ascending.sublist (dedup_sublist _)).and (nodup_dedup _)).imp fun both =>
      lt_of_le_of_ne both.1 both.2
  exact strict.filter _

section

variable (records : ledger.Records edges) (inside : ∀ edge ∈ edges, edge.1 ∈ nodes ∧ edge.2 ∈ nodes)

include records inside

/-- **What is released** when an item is taken: the items whose last open dependency it was. -/
theorem mem_freed {head : α} {queue taken : List α}
    (line : Line nodes edges taken (head :: queue)) {counts : α → Nat} {item : α}
    (split : counts item = (ledger.dependents head).count item +
      edges.countP fun edge => edge.2 = item ∧ edge.1 ∉ taken ++ [head]) :
    item ∈ ((ledger.dependents head).dedup.filter fun item =>
        counts item = (ledger.dependents head).count item) ↔
      item ∈ nodes ∧ item ∉ taken ++ head :: queue ∧
        ∀ dependency, (dependency, item) ∈ edges → dependency ∈ taken ++ [head] := by
  have isDependent : item ∈ ledger.dependents head ↔ (head, item) ∈ edges := by
    rw [records.dependents_eq]
    simp
  have closed : counts item = (ledger.dependents head).count item ↔
      ∀ dependency, (dependency, item) ∈ edges → dependency ∈ taken ++ [head] := by
    rw [split, ← countP_open_eq_zero]
    omega
  rw [mem_filter, mem_dedup, decide_eq_true_iff, closed, isDependent]
  constructor
  · rintro ⟨isEdge, closed⟩
    refine ⟨(inside _ isEdge).2, fun member => ?_, closed⟩
    exact line.head_notMem (((line.mem_iff item).mp member).2 head isEdge)
  · rintro ⟨isNode, isNew, closed⟩
    exact ⟨line.head_edge isNode isNew closed, closed⟩

/-- The queue empties, no counter falls below zero, and the line is kept. -/
theorem drain_spec (listed : edges.Pairwise fun edge next => edge.2 ≤ next.2) :
    ∀ (fuel : Nat) {counts : α → Nat} {queue taken : List α}, Line nodes edges taken queue →
      (∀ item, counts item = edges.countP fun edge => edge.2 = item ∧ edge.1 ∉ taken) →
      nodes.length ≤ fuel + taken.length →
      ∃ order, drain ledger.dependents fuel counts queue taken = some order ∧ Line nodes edges order [] := by
  intro fuel
  induction fuel with
  | zero =>
    intro counts queue taken line _ enough
    cases queue with
    | nil => exact ⟨taken, rfl, line⟩
    | cons head queue =>
      have subset : taken ++ head :: queue ⊆ nodes := fun item member => ((line.mem_iff item).mp member).1
      have length := (line.nodup.subperm subset).length_le
      rw [length_append, length_cons] at length
      omega
  | succ fuel ih =>
    intro counts queue taken line isCount enough
    cases queue with
    | nil => exact ⟨taken, rfl, line⟩
    | cons head queue =>
      have split (item : α) : counts item = (ledger.dependents head).count item +
          edges.countP fun edge => edge.2 = item ∧ edge.1 ∉ taken ++ [head] := by
        rw [isCount, count_dependents records, countP_open edges line.head_notMem]
      have released := release_eq (ledger.dependents head) counts queue
        fun item => (split item).symm ▸ Nat.le_add_right _ _
      unfold drain
      rw [released]
      refine ih (line.step ?_ ?_) (fun item => ?_) ?_
      · exact pairwise_freed records listed
      · exact fun item => mem_freed records inside line (split item)
      · rw [split, Nat.add_sub_cancel_left]
      · rw [length_append, length_singleton]
        omega

end

theorem sort_spec (ascending : nodes.Pairwise (· < ·)) (records : ledger.Records edges)
    (inside : ∀ edge ∈ edges, edge.1 ∈ nodes ∧ edge.2 ∈ nodes)
    (listed : edges.Pairwise fun edge next => edge.2 ≤ next.2) :
    ∃ order, sort nodes ledger = some order ∧ Line nodes edges order [] := by
  have isCount (item : α) :
      ledger.inDegree item = edges.countP fun edge => edge.2 = item ∧ edge.1 ∉ ([] : List α) := by
    rw [records.inDegree_eq]
    refine countP_congr fun edge _ => ?_
    simp
  refine drain_spec records inside listed nodes.length (.start ascending (fun item => ?_) filter_sublist)
    isCount (Nat.le_add_right _ _)
  rw [mem_filter, decide_eq_true_iff, isCount, countP_open_eq_zero]
  simp only [not_mem_nil, imp_false]

theorem Ledger.Lists.sort_spec {ledger : Ledger Nat} {depends : Nat → Nat → Prop} {size : Nat}
    (lists : ledger.Lists depends size) (inside : ∀ dependency item, depends dependency item → dependency < size) :
    ∃ edges order, sort (List.range size) ledger = some order ∧ Line (List.range size) edges order [] ∧
      (∀ edge ∈ edges, edge.1 ∈ List.range size ∧ edge.2 ∈ List.range size) ∧
      ∀ dependency item, (dependency, item) ∈ edges ↔ item < size ∧ depends dependency item := by
  obtain ⟨edges, records, listed, isEdge⟩ := lists
  have within : ∀ edge ∈ edges, edge.1 ∈ List.range size ∧ edge.2 ∈ List.range size := by
    rintro ⟨dependency, item⟩ member
    obtain ⟨less, depends⟩ := (isEdge dependency item).mp member
    exact ⟨mem_range.mpr (inside _ _ depends), mem_range.mpr less⟩
  obtain ⟨order, sorted, line⟩ := Kahn.sort_spec pairwise_lt_range records within listed
  exact ⟨edges, order, sorted, line, within, isEdge⟩

end Spec

end Line

end Kahn

end Subduction
