/-
**Tasks that ask a shared service for one operation at a time.**

A task is a finite program: it is done, it has failed, or it asks for an operation and goes on with the
answer. Between two of its operations other tasks may take theirs. A task is safe when each of its
operations, in any state that the others may have brought about, keeps the shared invariant, and when it
can only be done where its postcondition holds; this is stable under everything the others may do.

* **`Safe.advance`**, **`safe_advanceAt`** — one operation of a task keeps all tasks safe.
* **`Safe.bind`**, **`Safe.attempt`**, **`Safe.forM`**.
-/

import Mathlib.Data.List.Basic

namespace Subduction

/-- **A task**: done, failed, or about to ask for an operation. -/
inductive Prog (ρ : Type) (ans : ρ → Type) (α : Type) : Type where
  | done (value : α)
  | fail
  | ask (request : ρ) (next : ans request → Prog ρ ans α)

namespace Prog

variable {ρ : Type} {ans : ρ → Type} {α β γ : Type}

/-! ### Composition -/

/-- Go on with the result; a failure stays a failure. -/
def bind : Prog ρ ans α → (α → Prog ρ ans β) → Prog ρ ans β
  | .done value, rest => rest value
  | .fail, _ => .fail
  | .ask request next, rest => .ask request fun answer => (next answer).bind rest

instance : Monad (Prog ρ ans) where
  pure := done
  bind := bind

@[simp] theorem done_bind (value : α) (rest : α → Prog ρ ans β) : done value >>= rest = rest value := rfl

@[simp] theorem fail_bind (rest : α → Prog ρ ans β) : (fail : Prog ρ ans α) >>= rest = fail := rfl

@[simp] theorem ask_bind (request : ρ) (next : ans request → Prog ρ ans α) (rest : α → Prog ρ ans β) :
    ask request next >>= rest = ask request fun answer => next answer >>= rest := rfl

def call (request : ρ) : Prog ρ ans (ans request) := ask request done

/-- The result of the task, or nothing if it fails. -/
def attempt : Prog ρ ans α → Prog ρ ans (Option α)
  | .done value => .done (some value)
  | .fail => .done none
  | .ask request next => .ask request fun answer => (next answer).attempt

/-! ### Operations -/

section Perform

variable {σ : Type} (perform : (request : ρ) → Bool → σ → ans request × σ)

/-- The next operation of the task, which may fail. -/
def advance (failing : Bool) (state : σ) : Prog ρ ans α → Prog ρ ans α × σ
  | .ask request next =>
    (next (perform request failing state).1, (perform request failing state).2)
  | task => (task, state)

variable {perform} {post : α → σ → Prop} {task : Prog ρ ans α} {state : σ}

end Perform

end Prog

/-! ### Safety -/

/-- **What the tasks of a system agree on**: the valid states, how a state may grow, and the condition
under which an operation is taken. -/
structure Rules (ρ σ : Type) where
  valid : σ → Prop
  grows : σ → σ → Prop
  meets : ρ → Bool → σ → Prop
  refl : ∀ state, grows state state
  trans : ∀ {first second third}, grows first second → grows second third → grows first third

namespace Prog

variable {ρ σ : Type} {ans : ρ → Type} {α β : Type}
  (perform : (request : ρ) → Bool → σ → ans request × σ) (rules : Rules ρ σ)

/-- **Safety of a task** from a state on: whatever the others have done in the meantime, its operations
keep the rules, and where it is done its postcondition holds. -/
def Safe (post : α → σ → Prop) : Prog ρ ans α → σ → Prop
  | .done value, state => ∀ later, rules.valid later → rules.grows state later → post value later
  | .fail, _ => True
  | .ask request next, state => ∀ now failing, rules.valid now → rules.grows state now →
      rules.meets request failing now → rules.valid (perform request failing now).2 ∧
        rules.grows now (perform request failing now).2 ∧
        Safe post (next (perform request failing now).1) (perform request failing now).2

variable {perform rules} {post : α → σ → Prop} {task : Prog ρ ans α} {state after : σ}

section

variable (safe : task.Safe perform rules post state)

include safe

theorem Safe.grow (growth : rules.grows state after) : task.Safe perform rules post after := by
  cases task with
  | done value => exact fun later valid grows => safe later valid (rules.trans growth grows)
  | fail => trivial
  | ask request next =>
    exact fun now failing valid grows => safe now failing valid (rules.trans growth grows)

theorem Safe.weaken {other : α → σ → Prop}
    (weaker : ∀ value later, rules.valid later → post value later → other value later) :
    task.Safe perform rules other state := by
  induction task generalizing state with
  | done value => exact fun later valid grows => weaker value later valid (safe later valid grows)
  | fail => trivial
  | ask request next ih =>
    intro now failing valid grows meets
    obtain ⟨validAfter, growsAfter, rest⟩ := safe now failing valid grows meets
    exact ⟨validAfter, growsAfter, ih _ rest⟩

theorem Safe.bind {rest : α → Prog ρ ans β} {other : β → σ → Prop} (valid : rules.valid state)
    (goesOn : ∀ value later, rules.valid later → rules.grows state later → post value later →
      (rest value).Safe perform rules other later) :
    (task >>= rest).Safe perform rules other state := by
  induction task generalizing state with
  | done value =>
    exact goesOn value state valid (rules.refl state) (safe state valid (rules.refl state))
  | fail => trivial
  | ask request next ih =>
    intro now failing validNow grows meets
    obtain ⟨validAfter, growsAfter, safeNext⟩ := safe now failing validNow grows meets
    refine ⟨validAfter, growsAfter, ih _ safeNext validAfter ?_⟩
    intro value later validLater growsLater done
    exact goesOn value later validLater (rules.trans grows (rules.trans growsAfter growsLater)) done

/-- What was there when the task began is still there when it is done. -/
theorem Safe.remember {before : σ} (earlier : rules.grows before state) :
    task.Safe perform rules (fun value later => rules.grows before later ∧ post value later) state := by
  induction task generalizing state with
  | done value =>
    exact fun later valid grows => ⟨rules.trans earlier grows, safe later valid grows⟩
  | fail => trivial
  | ask request next ih =>
    intro now failing valid grows meets
    obtain ⟨validAfter, growsAfter, safeNext⟩ := safe now failing valid grows meets
    exact ⟨validAfter, growsAfter,
      ih _ safeNext (rules.trans earlier (rules.trans grows growsAfter))⟩

theorem Safe.attempt :
    task.attempt.Safe perform rules (fun result later => ∀ value, result = some value → post value later)
      state := by
  induction task generalizing state with
  | done value =>
    intro later valid grows found same
    obtain rfl := Option.some.inj same
    exact safe later valid grows
  | fail =>
    intro later _ _ found same
    cases same
  | ask request next ih =>
    intro now failing valid grows meets
    obtain ⟨validAfter, growsAfter, safeNext⟩ := safe now failing valid grows meets
    exact ⟨validAfter, growsAfter, ih _ safeNext⟩

end

/-- A loop over a list, each step of which establishes a fact that lasts. -/
theorem Safe.forM {ι : Type} {list : List ι} {body : ι → Prog ρ ans PUnit} {each : ι → σ → Prop}
    (lasts : ∀ item before later, rules.grows before later → each item before → each item later)
    (valid : rules.valid state)
    (safe : ∀ item ∈ list, ∀ now, rules.valid now → rules.grows state now →
      (body item).Safe perform rules (fun _ later => each item later) now) :
    (list.forM body).Safe perform rules (fun _ later => ∀ item ∈ list, each item later) state := by
  induction list generalizing state with
  | nil =>
    intro later _ _ item member
    cases member
  | cons first others ih =>
    show (body first >>= fun _ => others.forM body).Safe perform rules _ state
    refine Safe.bind (safe first List.mem_cons_self state valid (rules.refl state)) valid ?_
    intro _ now validNow growsNow firstDone
    have rest := ih validNow fun item member later validLater growsLater =>
      safe item (List.mem_cons_of_mem _ member) later validLater (rules.trans growsNow growsLater)
    -- The fact about the first item lasts while the others are worked on.
    refine (rest.remember (rules.refl now)).weaken fun _ later _ both item member => ?_
    rcases List.mem_cons.mp member with rfl | older
    · exact lasts item now later both.1 firstDone
    · exact both.2 item older

/-! ### Several tasks -/

/-- The operation that the task is about to ask for meets the condition. -/
def Meets (meets : ρ → Bool → σ → Prop) (failing : Bool) (state : σ) : Prog ρ ans α → Prop
  | .ask request _ => meets request failing state
  | _ => True

instance (meets : ρ → Bool → σ → Prop) [∀ request failing state, Decidable (meets request failing state)]
    (failing : Bool) (state : σ) : ∀ task : Prog ρ ans α, Decidable (task.Meets meets failing state)
  | .ask request _ => inferInstanceAs (Decidable (meets request failing state))
  | .done _ => isTrue trivial
  | .fail => isTrue trivial

theorem Safe.advance {failing : Bool} (safe : task.Safe perform rules post state)
    (valid : rules.valid state) (meets : task.Meets rules.meets failing state) :
    rules.valid (task.advance perform failing state).2 ∧
      rules.grows state (task.advance perform failing state).2 ∧
      (task.advance perform failing state).1.Safe perform rules post
        (task.advance perform failing state).2 := by
  cases task with
  | done value => exact ⟨valid, rules.refl state, safe⟩
  | fail => exact ⟨valid, rules.refl state, safe⟩
  | ask request next => exact safe state failing valid (rules.refl state) meets

variable (perform) in
/-- The task at the index takes its next operation. -/
def advanceAt (index : Nat) (failing : Bool) (state : σ) (tasks : List (Prog ρ ans α)) :
    List (Prog ρ ans α) × σ :=
  match tasks[index]? with
  | none => (tasks, state)
  | some task =>
    (tasks.set index (task.advance perform failing state).1, (task.advance perform failing state).2)

/-- The operation that the task at the index is about to ask for meets the condition. -/
def MeetsAt (meets : ρ → Bool → σ → Prop) (index : Nat) (failing : Bool) (state : σ)
    (tasks : List (Prog ρ ans α)) : Prop :=
  ∀ task ∈ tasks[index]?, task.Meets meets failing state

instance (meets : ρ → Bool → σ → Prop) [∀ request failing state, Decidable (meets request failing state)]
    (index : Nat) (failing : Bool) (state : σ) (tasks : List (Prog ρ ans α)) :
    Decidable (MeetsAt meets index failing state tasks) :=
  inferInstanceAs (Decidable (∀ task ∈ tasks[index]?, task.Meets meets failing state))

theorem safe_advanceAt {index : Nat} {failing : Bool} {tasks : List (Prog ρ ans α)}
    (safe : ∀ task ∈ tasks, task.Safe perform rules post state) (valid : rules.valid state)
    (meets : MeetsAt rules.meets index failing state tasks) :
    rules.valid (advanceAt perform index failing state tasks).2 ∧
      rules.grows state (advanceAt perform index failing state tasks).2 ∧
      ∀ task ∈ (advanceAt perform index failing state tasks).1,
        task.Safe perform rules post (advanceAt perform index failing state tasks).2 := by
  unfold advanceAt
  cases found : tasks[index]? with
  | none => exact ⟨valid, rules.refl state, safe⟩
  | some task =>
    obtain ⟨validAfter, grows, stays⟩ :=
      (safe task (List.mem_of_getElem? found)).advance valid (meets task found)
    refine ⟨validAfter, grows, fun other member => ?_⟩
    rcases List.mem_or_eq_of_mem_set member with old | rfl
    · exact (safe other old).grow grows
    · exact stays

end Prog

end Subduction
