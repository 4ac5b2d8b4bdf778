/-
**Worklist loops: pop, skip what was seen, visit, push.**

`run key visit fuel stack seen acc` is the loop

```
while let Some(item) = stack.pop() { if !seen.insert(key(item)) { continue; } visit }
```

where `visit` may change the accumulator, push further items (`stack.extend`, so the last one is
popped first) or stop the loop with an error. The fuel is a bound on the number of pops.

* **`run_rule`** — the loop rule: an invariant of (stack, seen, accumulator) that every skip and
  every visit keeps holds at the end with an empty stack, provided the fuel covers the stack and
  everything the unseen nodes can still push (`budget`). A visit that fails establishes `Fail`.
* **`run_map`** — a loop does the same under other names for its keys.
* `reach succ dom roots` — the loop without accumulator, and **`mem_reach`**: its result is the
  set of nodes reachable from `roots`.
-/

import Mathlib.Algebra.BigOperators.Group.Finset.Basic
import Mathlib.Algebra.Order.BigOperators.Group.Finset
import Mathlib.Data.Finset.SDiff
import Mathlib.Logic.Relation

set_option linter.unusedSectionVars false

namespace Subduction.Worklist

open Relation Finset List

variable {α β σ ε : Type*} [DecidableEq α]

/-- The loop, for at most `fuel` pops. The top of the stack is the head of the list. -/
def run (key : β → α) (visit : Finset α → σ → α → σ × Except ε (List β)) :
    Nat → List β → Finset α → σ → (Finset α × σ) × Option ε
  | 0, _, seen, acc => ((seen, acc), none)
  | _ + 1, [], seen, acc => ((seen, acc), none)
  | fuel + 1, item :: stack, seen, acc =>
    if key item ∈ seen then run key visit fuel stack seen acc
    else
      match visit (insert (key item) seen) acc (key item) with
      | (next, .error failure) => ((insert (key item) seen, next), some failure)
      | (next, .ok pushed) =>
        run key visit fuel (pushed.reverse ++ stack) (insert (key item) seen) next

/-- What the nodes of `dom` that were not seen yet can still push. -/
def budget (weight : α → Nat) (dom seen : Finset α) : Nat := ∑ a ∈ dom \ seen, weight a

theorem budget_insert (weight : α → Nat) (dom seen : Finset α) {a : α} (inside : a ∈ dom)
    (fresh : a ∉ seen) :
    budget weight dom seen = weight a + budget weight dom (insert a seen) := by
  unfold budget
  have split : dom \ seen = insert a (dom \ insert a seen) := by
    ext b
    simp only [mem_sdiff, mem_insert]
    by_cases same : b = a
    · subst same
      simp [inside, fresh]
    · simp [same]
  rw [split, sum_insert]
  simp

theorem budget_insert_le (weight : α → Nat) (dom seen : Finset α) (a : α) :
    budget weight dom (insert a seen) ≤ budget weight dom seen :=
  sum_le_sum_of_subset (sdiff_subset_sdiff le_rfl (subset_insert a seen))

/-- The outcome of a loop: the invariant with an empty stack, or a failure. -/
def Outcome (Inv : List β → Finset α → σ → Prop) (Fail : σ → ε → Prop) :
    (Finset α × σ) × Option ε → Prop
  | ((seen, acc), none) => Inv [] seen acc
  | ((_, acc), some failure) => Fail acc failure

/-- What one visit has to establish: the invariant and a bounded number of pushes, none from
outside `dom`, or the failure condition. -/
def Visited (Inv : List β → Finset α → σ → Prop) (Fail : σ → ε → Prop) (weight : α → Nat)
    (dom : Finset α) (a : α) (stack : List β) (seen : Finset α) : σ × Except ε (List β) → Prop
  | (acc, .error failure) => Fail acc failure
  | (acc, .ok pushed) =>
    Inv (pushed.reverse ++ stack) seen acc ∧ pushed.length ≤ weight a ∧ (a ∉ dom → pushed = [])

theorem run_rule (key : β → α) (visit : Finset α → σ → α → σ × Except ε (List β))
    (Inv : List β → Finset α → σ → Prop) (Fail : σ → ε → Prop) (weight : α → Nat) (dom : Finset α)
    (skip : ∀ item stack seen acc, Inv (item :: stack) seen acc → key item ∈ seen →
      Inv stack seen acc)
    (step : ∀ item stack seen acc, Inv (item :: stack) seen acc → key item ∉ seen →
      Visited Inv Fail weight dom (key item) stack (insert (key item) seen)
        (visit (insert (key item) seen) acc (key item))) :
    ∀ fuel stack seen acc, Inv stack seen acc → stack.length + budget weight dom seen ≤ fuel →
      Outcome Inv Fail (run key visit fuel stack seen acc) := by
  intro fuel
  induction fuel with
  | zero =>
    intro stack seen acc holds enough
    have done : stack = [] := eq_nil_of_length_eq_zero (by omega)
    subst done
    exact holds
  | succ fuel ih =>
    intro stack seen acc holds enough
    cases stack with
    | nil => exact holds
    | cons item stack =>
      rw [length_cons] at enough
      unfold run
      by_cases known : key item ∈ seen
      · rw [if_pos known]
        exact ih stack seen acc (skip item stack seen acc holds known) (by omega)
      · rw [if_neg known]
        have visited := step item stack seen acc holds known
        cases outcome : visit (insert (key item) seen) acc (key item) with
        | mk next answer =>
          rw [outcome] at visited
          cases answer with
          | error failure => exact visited
          | ok pushed =>
            obtain ⟨kept, bounded, outside⟩ := visited
            refine ih _ _ _ kept ?_
            rw [length_append, length_reverse]
            by_cases inside : key item ∈ dom
            · have spent := budget_insert weight dom seen inside known
              omega
            · have spent := budget_insert_le weight dom seen (key item)
              rw [outside inside, length_nil]
              omega

/-- What every visit keeps of the accumulator holds at the end, whatever the fuel. -/
theorem run_keeps (key : β → α) (visit : Finset α → σ → α → σ × Except ε (List β)) (Keeps : σ → Prop)
    (step : ∀ seen acc a, Keeps acc → Keeps (visit seen acc a).1) :
    ∀ fuel stack seen acc, Keeps acc → Keeps (run key visit fuel stack seen acc).1.2 := by
  intro fuel
  induction fuel with
  | zero => exact fun _ _ _ holds => holds
  | succ fuel ih =>
    intro stack seen acc holds
    cases stack with
    | nil => exact holds
    | cons item stack =>
      unfold run
      by_cases known : key item ∈ seen
      · rw [if_pos known]
        exact ih stack seen acc holds
      · rw [if_neg known]
        have kept := step (insert (key item) seen) acc (key item) holds
        cases outcome : visit (insert (key item) seen) acc (key item) with
        | mk next answer =>
          rw [outcome] at kept
          cases answer with
          | error failure => exact kept
          | ok pushed => exact ih _ _ _ kept

theorem run_map {α' β' : Type*} [DecidableEq α'] (key : β → α) (key' : β' → α')
    (visit : Finset α → σ → α → σ × Except ε (List β))
    (visit' : Finset α' → σ → α' → σ × Except ε (List β')) (rename : β → β') (name : α → α')
    (good : α → Prop) (keyed : ∀ item, good (key item) → key' (rename item) = name (key item))
    (apart : ∀ a b, good a → good b → name a = name b → a = b)
    (visits : ∀ seen acc a, good a → visit' (seen.image name) acc (name a) =
      ((visit seen acc a).1, (visit seen acc a).2.map (List.map rename)))
    (pushes : ∀ seen acc a pushed, good a → (visit seen acc a).2 = .ok pushed →
      ∀ item ∈ pushed, good (key item)) :
    ∀ fuel stack seen acc, (∀ item ∈ stack, good (key item)) → (∀ a ∈ seen, good a) →
      run key' visit' fuel (stack.map rename) (seen.image name) acc =
        (((run key visit fuel stack seen acc).1.1.image name, (run key visit fuel stack seen acc).1.2),
          (run key visit fuel stack seen acc).2) := by
  intro fuel
  induction fuel with
  | zero => exact fun _ _ _ _ _ => rfl
  | succ fuel ih =>
    intro stack seen acc onStack inSeen
    cases stack with
    | nil => rfl
    | cons item stack =>
      have goodItem := onStack item List.mem_cons_self
      have goodRest : ∀ other ∈ stack, good (key other) :=
        fun other member => onStack other (List.mem_cons_of_mem _ member)
      have known : key' (rename item) ∈ seen.image name ↔ key item ∈ seen := by
        rw [keyed item goodItem, mem_image]
        constructor
        · rintro ⟨a, member, same⟩
          rwa [← apart a _ (inSeen a member) goodItem same]
        · exact fun member => ⟨_, member, rfl⟩
      rw [List.map_cons, run, run]
      by_cases seenBefore : key item ∈ seen
      · rw [if_pos seenBefore, if_pos (known.mpr seenBefore)]
        exact ih stack seen acc goodRest inSeen
      · rw [if_neg seenBefore, if_neg fun member => seenBefore (known.mp member)]
        have visited := visits (insert (key item) seen) acc (key item) goodItem
        rw [image_insert] at visited
        rw [keyed item goodItem, visited]
        have pushed := pushes (insert (key item) seen) acc (key item)
        cases outcome : visit (insert (key item) seen) acc (key item) with
        | mk next answer =>
          rw [outcome] at pushed
          cases answer with
          | error failure =>
            show ((_, _), _) = _
            rw [image_insert]
          | ok fresh =>
            show run key' visit' fuel ((fresh.map rename).reverse ++ stack.map rename) _ _ = _
            rw [← List.map_reverse, ← List.map_append, ← image_insert]
            refine ih _ _ _ (fun other member => ?_) fun a member => ?_
            · rcases List.mem_append.mp member with new | old
              · exact pushed fresh goodItem rfl other (List.mem_reverse.mp new)
              · exact goodRest other old
            · rcases mem_insert.mp member with rfl | old
              · exact goodItem
              · exact inSeen a old

/-! ### Reachability -/

/-- **The frontier invariant** of a graph search. -/
structure Frontier (edge : α → α → Prop) (roots : α → Prop) (stack : List α) (seen : Finset α) :
    Prop where
  reached : ∀ a, a ∈ stack ∨ a ∈ seen → ∃ root, roots root ∧ ReflTransGen edge root a
  rooted : ∀ root, roots root → root ∈ stack ∨ root ∈ seen
  closed : ∀ a ∈ seen, ∀ b, edge a b → b ∈ stack ∨ b ∈ seen

namespace Frontier

variable {edge : α → α → Prop} {roots : α → Prop} {stack : List α} {seen : Finset α} {a : α}

theorem start (edge : α → α → Prop) {roots : List α} {isRoot : α → Prop}
    (same : ∀ a, isRoot a ↔ a ∈ roots) : Frontier edge isRoot roots ∅ where
  reached a inSight := by
    rcases inSight with onStack | inSeen
    · exact ⟨a, (same a).mpr onStack, .refl⟩
    · exact absurd inSeen (notMem_empty a)
  rooted root isRoot := Or.inl ((same root).mp isRoot)
  closed a inSeen := absurd inSeen (notMem_empty a)

section

variable (frontier : Frontier edge roots (a :: stack) seen)

include frontier

theorem skip (known : a ∈ seen) : Frontier edge roots stack seen := by
  have drop : ∀ b, b ∈ a :: stack ∨ b ∈ seen → b ∈ stack ∨ b ∈ seen := by
    intro b inSight
    rcases inSight with onStack | inSeen
    · rcases mem_cons.mp onStack with rfl | onStack
      · exact Or.inr known
      · exact Or.inl onStack
    · exact Or.inr inSeen
  refine ⟨fun b inSight => frontier.reached b ?_, fun root isRoot => drop root
    (frontier.rooted root isRoot), fun b inSeen c step => drop c (frontier.closed b inSeen c step)⟩
  exact inSight.imp_left (mem_cons_of_mem a)

/-- A visit whose successors are pushed, on the stack already, or seen. -/
theorem expand {pushed : List α} (sound : ∀ b ∈ pushed, edge a b)
    (complete : ∀ b, edge a b → (b ∈ pushed ∨ b ∈ stack) ∨ b ∈ insert a seen) :
    Frontier edge roots (pushed.reverse ++ stack) (insert a seen) := by
  have here : ∃ root, roots root ∧ ReflTransGen edge root a :=
    frontier.reached a (Or.inl mem_cons_self)
  have keep : ∀ b, b ∈ a :: stack ∨ b ∈ seen → b ∈ pushed.reverse ++ stack ∨ b ∈ insert a seen := by
    intro b inSight
    rcases inSight with onStack | inSeen
    · rcases mem_cons.mp onStack with rfl | onStack
      · exact Or.inr (mem_insert_self b seen)
      · exact Or.inl (mem_append_right _ onStack)
    · exact Or.inr (mem_insert_of_mem inSeen)
  refine ⟨fun b inSight => ?_, fun root isRoot => keep root (frontier.rooted root isRoot),
    fun b inSeen c edgeTo => ?_⟩
  · rcases inSight with onStack | inSeen
    · rcases mem_append.mp onStack with new | old
      · obtain ⟨root, isRoot, path⟩ := here
        exact ⟨root, isRoot, path.tail (sound b (mem_reverse.mp new))⟩
      · exact frontier.reached b (Or.inl (mem_cons_of_mem a old))
    · rcases mem_insert.mp inSeen with rfl | old
      · exact here
      · exact frontier.reached b (Or.inr old)
  · rcases mem_insert.mp inSeen with rfl | old
    · rw [mem_append, mem_reverse]
      exact complete c edgeTo
    · exact keep c (frontier.closed b old c edgeTo)

theorem step {pushed : List α} (sound : ∀ b ∈ pushed, edge a b)
    (complete : ∀ b, edge a b → b ∈ pushed ∨ b ∈ insert a seen) :
    Frontier edge roots (pushed.reverse ++ stack) (insert a seen) :=
  frontier.expand sound fun b edgeTo => (complete b edgeTo).imp_left Or.inl

end

theorem mem_iff (frontier : Frontier edge roots [] seen) :
    a ∈ seen ↔ ∃ root, roots root ∧ ReflTransGen edge root a := by
  refine ⟨fun inSeen => frontier.reached a (Or.inr inSeen), ?_⟩
  rintro ⟨root, isRoot, path⟩
  induction path with
  | refl => exact (frontier.rooted root isRoot).resolve_left not_mem_nil
  | tail _ edgeTo ih => exact (frontier.closed _ ih _ edgeTo).resolve_left not_mem_nil

end Frontier

def pushAll (succ : α → List α) (_ : Finset α) (_ : Unit) (a : α) : Unit × Except Empty (List α) :=
  ((), .ok (succ a))

/-- The nodes a search from `roots` visits, where only nodes of `dom` have successors. -/
def reach (succ : α → List α) (dom : Finset α) (roots : List α) : Finset α :=
  (run id (pushAll succ) (roots.length + ∑ a ∈ dom, (succ a).length) roots ∅ ()).1.1

theorem mem_reach {succ : α → List α} {dom : Finset α} (outside : ∀ a ∉ dom, succ a = [])
    (roots : List α) (a : α) :
    a ∈ reach succ dom roots ↔ ∃ root ∈ roots, ReflTransGen (fun a b => b ∈ succ a) root a := by
  have outcome := run_rule id (pushAll succ)
    (fun stack seen _ => Frontier (fun a b => b ∈ succ a) (· ∈ roots) stack seen)
    (fun _ failure => failure.elim) (fun a => (succ a).length) dom
    (fun item stack seen _ frontier known => frontier.skip known)
    (fun item stack seen _ frontier fresh =>
      ⟨frontier.step (fun _ member => member) (fun _ member => Or.inl member), le_rfl,
        outside (id item)⟩)
    (roots.length + ∑ a ∈ dom, (succ a).length) roots ∅ ()
    (Frontier.start _ fun _ => Iff.rfl)
    (by rw [budget, sdiff_empty])
  unfold reach
  cases result : run id (pushAll succ) (roots.length + ∑ a ∈ dom, (succ a).length) roots ∅ () with
  | mk final failure =>
    rw [result] at outcome
    cases failure with
    | none => exact Frontier.mem_iff outcome
    | some failure => exact failure.elim

end Subduction.Worklist
