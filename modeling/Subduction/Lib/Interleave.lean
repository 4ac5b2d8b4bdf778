/-
**Operations that take turns on a shared state.**

An operation is a task that advances by atomic steps: each step reads and changes the shared state and
says how the task goes on. A turn starts a task, advances one of the tasks, or is an event from
outside; a run is any sequence of turns, so it is any interleaving of any number of operations.

* **`Along.keeps`** — what the turns that meet a condition keep holds at the end of such a run.
* **`forall_prefix_iff_along`** — a condition that is exact for a property of all states of a run.
* **`Crew.step_cases`** — what one turn can do.
* **`Crew.forall_step`** — what every task relies on and no other task spoils is kept by a turn.
-/

import Mathlib.Data.List.Basic

namespace Subduction

open List

/-! ### Runs whose turns meet a condition -/

section Runs

variable {σ ε : Type*}

/-- **Every turn of the run meets the condition**, in the state in which it is taken. -/
def Along (step : σ → ε → σ) (meets : σ → ε → Prop) : σ → List ε → Prop
  | _, [] => True
  | state, turn :: turns => meets state turn ∧ Along step meets (step state turn) turns

variable {step : σ → ε → σ} {meets : σ → ε → Prop}

theorem Along.keeps {turns : List ε} {state : σ} (along : Along step meets state turns)
    {holds : σ → Prop}
    (kept : ∀ state turn, holds state → meets state turn → holds (step state turn))
    (start : holds state) : holds (turns.foldl step state) := by
  induction turns generalizing state with
  | nil => exact start
  | cons turn turns ih => exact ih along.2 (kept state turn start along.1)

theorem Along.append {first second : List ε} {state : σ}
    (along : Along step meets state (first ++ second)) :
    Along step meets state first ∧ Along step meets (first.foldl step state) second := by
  induction first generalizing state with
  | nil => exact ⟨trivial, along⟩
  | cons turn turns ih =>
    obtain ⟨here, later⟩ := along
    exact ⟨⟨here, (ih later).1⟩, (ih later).2⟩

theorem Along.and_mem {turns : List ε} {state : σ} (along : Along step meets state turns)
    {also : ε → Prop} (each : ∀ turn ∈ turns, also turn) :
    Along step (fun state turn => meets state turn ∧ also turn) state turns := by
  induction turns generalizing state with
  | nil => exact trivial
  | cons turn turns ih =>
    exact ⟨⟨along.1, each turn mem_cons_self⟩,
      ih along.2 fun turn later => each turn (mem_cons_of_mem _ later)⟩

theorem Along.imp {turns : List ε} {state : σ} (along : Along step meets state turns)
    {holds : σ → Prop} {also : σ → ε → Prop}
    (kept : ∀ state turn, holds state → meets state turn → holds (step state turn))
    (follows : ∀ state turn, holds state → meets state turn → also state turn)
    (start : holds state) : Along step also state turns := by
  induction turns generalizing state with
  | nil => exact trivial
  | cons turn turns ih =>
    exact ⟨follows state turn start along.1, ih along.2 (kept state turn start along.1)⟩

theorem forall_prefix_iff_along (holds sound : σ → Prop)
    (kept : ∀ state turn, holds state → meets state turn → holds (step state turn))
    (follows : ∀ state, holds state → sound state)
    (breaks : ∀ state turn, holds state → ¬ meets state turn → ¬ sound (step state turn))
    {state : σ} (start : holds state) (turns : List ε) :
    (∀ before, before <+: turns → sound (before.foldl step state)) ↔
      Along step meets state turns := by
  induction turns generalizing state with
  | nil =>
    refine ⟨fun _ => trivial, fun _ before inside => ?_⟩
    rw [prefix_nil.mp inside]
    exact follows state start
  | cons turn turns ih =>
    constructor
    · intro each
      by_cases now : meets state turn
      · exact ⟨now, (ih (kept state turn start now)).mp fun before inside =>
          each (turn :: before) (cons_prefix_cons.mpr ⟨rfl, inside⟩)⟩
      · exact absurd (each [turn] (cons_prefix_cons.mpr ⟨rfl, nil_prefix⟩))
          (breaks state turn start now)
    · rintro ⟨now, later⟩ before inside
      cases before with
      | nil => exact follows state start
      | cons first before =>
        obtain ⟨rfl, within⟩ := cons_prefix_cons.mp inside
        exact (ih (kept state first start now)).mpr later before within

instance Along.decidable [∀ state turn, Decidable (meets state turn)] :
    ∀ (state : σ) (turns : List ε), Decidable (Along step meets state turns)
  | _, [] => isTrue trivial
  | state, turn :: turns =>
    have := Along.decidable (step state turn) turns
    inferInstanceAs (Decidable (meets state turn ∧ Along step meets (step state turn) turns))

end Runs

/-! ### Tasks on a shared state -/

/-- **A shared state and the tasks that work on it.** -/
structure Crew (σ τ : Type*) where
  shared : σ
  tasks : List τ

/-- An operation starts, a task takes its next step, or something happens from outside. -/
inductive Turn (ο ε : Type*) where
  | start (operation : ο)
  | advance (index : Nat)
  | outside (event : ε)

namespace Crew

variable {σ τ ο ε : Type*} (begin : ο → τ) (next : σ → τ → σ × τ) (react : σ → ε → σ)

def step (crew : Crew σ τ) : Turn ο ε → Crew σ τ
  | .start operation => ⟨crew.shared, crew.tasks ++ [begin operation]⟩
  | .advance index =>
    match crew.tasks[index]? with
    | none => crew
    | some task =>
      ⟨(next crew.shared task).1, crew.tasks.set index (next crew.shared task).2⟩
  | .outside event => ⟨react crew.shared event, crew.tasks⟩

variable {crew : Crew σ τ}

theorem step_cases (crew : Crew σ τ) (turn : Turn ο ε) : (∃ operation, turn = .start operation ∧
      crew.step begin next react turn = ⟨crew.shared, crew.tasks ++ [begin operation]⟩) ∨
    (∃ before task after, turn = .advance before.length ∧ crew.tasks = before ++ task :: after ∧
      crew.step begin next react turn =
        ⟨(next crew.shared task).1, before ++ (next crew.shared task).2 :: after⟩) ∨
    crew.step begin next react turn = crew ∨
    ∃ event, turn = .outside event ∧
      crew.step begin next react turn = ⟨react crew.shared event, crew.tasks⟩ := by
  cases turn with
  | start operation => exact Or.inl ⟨operation, rfl, rfl⟩
  | outside event => exact Or.inr (Or.inr (Or.inr ⟨event, rfl, rfl⟩))
  | advance index =>
    unfold step
    dsimp only
    cases found : crew.tasks[index]? with
    | none => exact Or.inr (Or.inr (Or.inl rfl))
    | some task =>
      obtain ⟨inside, isTask⟩ := List.getElem?_eq_some_iff.mp found
      have front : (crew.tasks.take index).length = index := by
        rw [length_take]
        omega
      have split : crew.tasks = crew.tasks.take index ++ task :: crew.tasks.drop (index + 1) := by
        rw [← isTask, ← drop_eq_getElem_cons inside, take_append_drop]
      refine Or.inr (Or.inl ⟨_, task, _, by rw [front], split, ?_⟩)
      show Crew.mk _ (crew.tasks.set index (next crew.shared task).2) = _
      rw [set_eq_take_append_cons_drop, if_pos inside]

variable {begin next react} {turn : Turn ο ε}

theorem forall_step (holds : σ → τ → Prop) (each : ∀ task ∈ crew.tasks, holds crew.shared task)
    (starts : ∀ operation, turn = .start operation → holds crew.shared (begin operation))
    (advances : ∀ before task after, turn = .advance before.length →
      crew.tasks = before ++ task :: after →
        holds (next crew.shared task).1 (next crew.shared task).2 ∧
          ∀ other ∈ before ++ after, holds (next crew.shared task).1 other)
    (reacts : ∀ event, turn = .outside event → ∀ task ∈ crew.tasks, holds (react crew.shared event) task) :
    ∀ task ∈ (crew.step begin next react turn).tasks,
      holds (crew.step begin next react turn).shared task := by
  intro other member
  rcases crew.step_cases begin next react turn with ⟨operation, isStart, result⟩ |
    ⟨before, task, after, isAdvance, split, result⟩ | result | ⟨event, isOutside, result⟩
  · rw [result] at member ⊢
    rcases mem_append.mp member with old | new
    · exact each other old
    · rw [mem_singleton.mp new]
      exact starts operation isStart
  · rw [result] at member ⊢
    obtain ⟨own, others⟩ := advances before task after isAdvance split
    rcases mem_append.mp member with front | back
    · exact others other (mem_append_left _ front)
    · rcases mem_cons.mp back with rfl | back
      · exact own
      · exact others other (mem_append_right _ back)
  · rw [result] at member ⊢
    exact each other member
  · rw [result] at member ⊢
    exact reacts event isOutside other member

end Crew

end Subduction
