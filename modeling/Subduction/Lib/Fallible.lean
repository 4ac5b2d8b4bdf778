/-
**Computations that fail and keep what they did.**

A computation changes a state and ends with a value or an error; the state it had reached when it failed
stays. Its specification has two postconditions, one for each way to end.

* **`Ensures.bind`**, **`Ensures.forM`** and others — the rules.
-/

import Mathlib.Data.List.Basic

namespace Subduction

abbrev Fallible (σ ε : Type) := ExceptT ε (StateM σ)

namespace Fallible

variable {σ ε α β : Type}

def exec (computation : Fallible σ ε α) (state : σ) : Except ε α × σ :=
  (ExceptT.run computation).run state

theorem exec_bind (first : Fallible σ ε α) (next : α → Fallible σ ε β) (state : σ) :
    exec (first >>= next) state = match exec first state with
      | (.ok value, after) => exec (next value) after
      | (.error error, after) => (.error error, after) := by
  show ((ExceptT.run first >>= ExceptT.bindCont next) : StateM _ _).run state = _
  rw [StateT.run_bind]
  show (ExceptT.bindCont next (exec first state).1).run (exec first state).2 = _
  cases exec first state with
  | mk result after =>
    cases result with
    | ok value => rfl
    | error error => rfl

/-- **A triple**: from a state as described the computation ends with a value in a state as the first
postcondition says, or it fails in a state as the second one says. -/
def Ensures (before : σ → Prop) (computation : Fallible σ ε α) (success : α → σ → Prop)
    (failure : ε → σ → Prop) : Prop :=
  ∀ state, before state → match exec computation state with
    | (.ok value, after) => success value after
    | (.error error, after) => failure error after

namespace Ensures

variable {before : σ → Prop} {success : α → σ → Prop} {failure : ε → σ → Prop}

theorem mono {computation : Fallible σ ε α} {stronger : σ → Prop} {weaker : α → σ → Prop}
    {weakerFailure : ε → σ → Prop} (triple : Ensures before computation success failure)
    (enough : ∀ state, stronger state → before state)
    (onSuccess : ∀ value state, success value state → weaker value state)
    (onFailure : ∀ error state, failure error state → weakerFailure error state) :
    Ensures stronger computation weaker weakerFailure := by
  intro state holds
  have ends := triple state (enough state holds)
  cases ran : exec computation state with
  | mk result after =>
    rw [ran] at ends
    cases result with
    | ok value => exact onSuccess value after ends
    | error error => exact onFailure error after ends

theorem bind {first : Fallible σ ε α} {next : α → Fallible σ ε β} {between : α → σ → Prop}
    {final : β → σ → Prop} (one : Ensures before first between failure)
    (two : ∀ value, Ensures (between value) (next value) final failure) :
    Ensures before (first >>= next) final failure := by
  intro state holds
  have ends := one state holds
  rw [exec_bind]
  cases ran : exec first state with
  | mk result after =>
    rw [ran] at ends
    cases result with
    | ok value => exact two value after ends
    | error error => exact ends

theorem of_fact {fact : Prop} {computation : Fallible σ ε α}
    (given : fact → Ensures before computation success failure) :
    Ensures (fun state => before state ∧ fact) computation success failure :=
  fun state holds => given holds.2 state holds.1

theorem liftM (result : Except ε α) (fails : ∀ error state, before state → failure error state) :
    Ensures before (MonadLiftT.monadLift result : Fallible σ ε α)
      (fun value state => before state ∧ result = .ok value) failure := by
  intro state holds
  cases result with
  | ok value => exact ⟨holds, rfl⟩
  | error error => exact fails error state holds

theorem forM {body : α → Fallible σ ε PUnit} (invariant : List α → σ → Prop) (items : List α)
    (round : ∀ done item rest, done ++ item :: rest = items →
      Ensures (invariant done) (body item) (fun _ => invariant (done ++ [item])) failure) :
    Ensures (invariant []) (items.forM body) (fun _ => invariant items) failure := by
  have fromPrefix (done rest : List α) (split : done ++ rest = items) :
      Ensures (invariant done) (rest.forM body) (fun _ => invariant items) failure := by
    induction rest generalizing done with
    | nil =>
      rw [List.append_nil] at split
      rw [split]
      exact fun _ holds => holds
    | cons item rest ih =>
      refine bind (round done item rest split) fun _ => ih (done ++ [item]) ?_
      rw [List.append_assoc]
      exact split
  exact fromPrefix [] items rfl

end Ensures

end Fallible

end Subduction
