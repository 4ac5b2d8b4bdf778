/-
**Readers whose sums must stay in range.**

A reader of the source computes positions with machine numbers. The same reader with its sums checked
either does what the reader on unbounded numbers does, or stops at the first sum that leaves the range.

* **`Follows.bind`**, **`Follows.times`** — where a sequence and a repetition of readers stop.
-/

import Subduction.Lib.Reading

namespace Subduction

open Cursor

/-! ### Checked computations -/

/-- What ends a checked computation: a number out of range, or an error of the computation itself. -/
inductive Fault (ε : Type) where
  | overflow
  | failed (error : ε)
deriving DecidableEq

namespace Fault

variable {ε α β : Type}

/-- A number that must stay below the limit. -/
def within (limit value : Nat) : Except (Fault ε) Nat :=
  if value < limit then .ok value else .error .overflow

/-- A computation whose sums are not checked. -/
def lift : Except ε α → Except (Fault ε) α
  | .ok value => .ok value
  | .error error => .error (.failed error)

theorem lift_ne_overflow (result : Except ε α) : lift result ≠ .error .overflow := by
  intro same
  cases result with
  | ok value => cases same
  | error error => cases same

/-- **Parts that agree, one after the other**: the second on what the first returns. -/
theorem bind_eq_lift {checked : Except (Fault ε) α} {plain : Except ε α}
    {next : α → Except (Fault ε) β} {plainNext : α → Except ε β} (first : checked = lift plain)
    (second : ∀ value, plain = .ok value → next value = lift (plainNext value)) :
    (checked >>= next) = lift (plain >>= plainNext) := by
  subst first
  cases plain with
  | error error => rfl
  | ok value => exact second value rfl

theorem within_bind {limit value : Nat} (small : value < limit) (next : Nat → Except (Fault ε) α) :
    (within limit value >>= next) = next value := by
  unfold within
  rw [if_pos small]
  rfl

end Fault

/-! ### Checked readers -/

/-- **A sequence of readers succeeds** when the first one does, and the second one behind it. -/
theorem Cursor.run_bind_eq_ok {ε α β : Type} {first : Cursor ε α} {next : α → Cursor ε β} {start : Nat}
    {result : β × Nat} :
    (first >>= next).run start = .ok result ↔
      ∃ value stop, first.run start = .ok (value, stop) ∧ (next value).run stop = .ok result := by
  rw [StateT.run_bind]
  cases ran : first.run start with
  | error failure =>
    refine ⟨fun done => ?_, fun ⟨_, _, done, _⟩ => ?_⟩
    · cases done
    · cases done
  | ok middle =>
    refine ⟨fun done => ⟨middle.1, middle.2, rfl, done⟩, fun ⟨_, _, same, done⟩ => ?_⟩
    obtain rfl := Except.ok.inj same
    exact done

/-- A reader with a check of the position that it moves the cursor to. -/
def Cursor.lifted {ε α : Type} (limit : Nat) (reader : Cursor ε α) : Cursor (Fault ε) α := fun start => do
  let (value, stop) ← Fault.lift (reader.run start)
  let stop ← Fault.within limit stop
  pure (value, stop)

/-- **A checked reader follows a plain one** on a buffer of the given size: it stops with an overflow from
the positions in `Stops`, and does what the plain reader does from the others. -/
structure Follows {ε α : Type} (size : Nat) (checked : Cursor (Fault ε) α) (plain : Cursor ε α)
    (Stops : Nat → Prop) : Prop where
  beyond : ∀ start ≤ size, Stops start → checked.run start = .error .overflow
  same : ∀ start ≤ size, ¬ Stops start → checked.run start = Fault.lift (plain.run start)
  inside : ∀ start ≤ size, ∀ value stop, plain.run start = .ok (value, stop) → stop ≤ size

theorem Reads.inside {ε α σ : Type} {buf : List σ} {reader : Cursor ε α} {Form : α → List σ → Prop}
    (reads : Reads buf reader Form) :
    ∀ start ≤ buf.length, ∀ value stop, reader.run start = .ok (value, stop) → stop ≤ buf.length := by
  intro start inside value stop done
  obtain ⟨form, -, stands, rfl⟩ := (reads start inside value stop).mp done
  exact isPrefix_drop_length (.inr inside) stands

namespace Follows

variable {ε α β : Type} {size : Nat} {checked : Cursor (Fault ε) α} {plain : Cursor ε α}
  {Stops : Nat → Prop}

theorem congr' {Stops' : Nat → Prop} (follows : Follows size checked plain Stops)
    (iff : ∀ start ≤ size, Stops start ↔ Stops' start) : Follows size checked plain Stops' :=
  ⟨fun start inside stops => follows.beyond start inside ((iff start inside).mpr stops),
    fun start inside clear => follows.same start inside fun stops => clear ((iff start inside).mp stops),
    follows.inside⟩

theorem congr {Stops' : Nat → Prop} (follows : Follows size checked plain Stops)
    (iff : ∀ start, Stops start ↔ Stops' start) : Follows size checked plain Stops' :=
  follows.congr' fun start _ => iff start

theorem pure (value : α) :
    Follows size (Pure.pure value : Cursor (Fault ε) α) (Pure.pure value) fun _ => False :=
  ⟨fun _ _ => False.elim, fun _ _ _ => rfl, fun _ inside _ _ done => (Prod.mk.inj (Except.ok.inj done)).2 ▸ inside⟩

theorem throw (error : ε) :
    Follows size (MonadExcept.throw (Fault.failed error) : Cursor (Fault ε) α)
      (MonadExcept.throw error) fun _ => False :=
  ⟨fun _ _ => False.elim, fun _ _ _ => rfl, fun _ _ _ _ done => by cases done⟩

theorem lifted {limit : Nat} (short : size < limit)
    (inside : ∀ start ≤ size, ∀ value stop, plain.run start = .ok (value, stop) → stop ≤ size) :
    Follows size (plain.lifted limit) plain fun _ => False := by
  refine ⟨fun _ _ => False.elim, fun start isInside _ => ?_, inside⟩
  show plain.lifted limit start = Fault.lift (plain.run start)
  unfold Cursor.lifted
  cases result : plain.run start with
  | error failure => rfl
  | ok found =>
    obtain ⟨value, stop⟩ := found
    exact Fault.within_bind (Nat.lt_of_le_of_lt (inside start isInside value stop result) short) _

section

variable {next : α → Cursor (Fault ε) β} {plainNext : α → Cursor ε β}

theorem bind {StopsNext : α → Nat → Prop} (first : Follows size checked plain Stops)
    (second : ∀ value, Follows size (next value) (plainNext value) (StopsNext value)) :
    Follows size (checked >>= next) (plain >>= plainNext) fun start =>
      Stops start ∨ ∃ value stop, plain.run start = .ok (value, stop) ∧ StopsNext value stop where
  beyond start inside stops := by
    rw [StateT.run_bind]
    by_cases stopsFirst : Stops start
    · rw [first.beyond start inside stopsFirst]
      rfl
    · obtain ⟨value, stop, ran, stopsNext⟩ := stops.resolve_left stopsFirst
      rw [first.same start inside stopsFirst, ran]
      exact (second value).beyond stop (first.inside start inside value stop ran) stopsNext
  same start inside clear := by
    rw [StateT.run_bind, StateT.run_bind]
    refine Fault.bind_eq_lift (first.same start inside fun stops => clear (.inl stops)) fun middle ran => ?_
    obtain ⟨value, stop⟩ := middle
    exact (second value).same stop (first.inside start inside value stop ran) fun stopsNext =>
      clear (.inr ⟨value, stop, ran, stopsNext⟩)
  inside start inside value stop done := by
    obtain ⟨found, position, ran, done⟩ := run_bind_eq_ok.mp done
    exact (second found).inside position (first.inside start inside found position ran) value stop done

theorem after {StopsNext : α → Nat → Prop} (first : Follows size checked plain fun _ => False)
    (second : ∀ value, Follows size (next value) (plainNext value) (StopsNext value)) :
    Follows size (checked >>= next) (plain >>= plainNext) fun start =>
      ∃ value stop, plain.run start = .ok (value, stop) ∧ StopsNext value stop :=
  (first.bind second).congr fun _ => or_iff_right id

theorem before (first : Follows size checked plain Stops)
    (second : ∀ value, Follows size (next value) (plainNext value) fun _ => False) :
    Follows size (checked >>= next) (plain >>= plainNext) Stops :=
  (first.bind second).congr fun _ => or_iff_left fun ⟨_, _, _, never⟩ => never

end

theorem times (follows : Follows size checked plain Stops) (count : Nat) :
    Follows size (checked.times count) (plain.times count) fun start =>
      ∃ fewer < count, ∃ values stop, (plain.times fewer).run start = .ok (values, stop) ∧ Stops stop := by
  induction count with
  | zero => exact (Follows.pure []).congr fun start => ⟨False.elim, fun ⟨_, few, _⟩ => absurd few (Nat.not_lt_zero _)⟩
  | succ count ih =>
    refine (follows.bind fun first => ih.bind fun rest => Follows.pure (first :: rest)).congr fun start => ?_
    constructor
    · rintro (stops | ⟨first, middle, ran, (⟨fewer, few, values, stop, rest, stops⟩ | ⟨_, _, _, never⟩)⟩)
      · exact ⟨0, Nat.succ_pos count, [], start, rfl, stops⟩
      · refine ⟨fewer + 1, Nat.succ_lt_succ few, first :: values, stop, ?_, stops⟩
        exact run_bind_eq_ok.mpr ⟨first, middle, ran, run_bind_eq_ok.mpr ⟨values, stop, rest, rfl⟩⟩
      · exact never.elim
    · rintro ⟨fewer, few, values, stop, ran, stops⟩
      cases fewer with
      | zero =>
        obtain ⟨-, rfl⟩ := Prod.mk.inj (Except.ok.inj ran)
        exact .inl stops
      | succ fewer =>
        obtain ⟨first, middle, ranFirst, done⟩ := run_bind_eq_ok.mp ran
        obtain ⟨rest, _, ranRest, done⟩ := run_bind_eq_ok.mp done
        obtain ⟨-, rfl⟩ := Prod.mk.inj (Except.ok.inj done)
        exact .inr ⟨first, middle, ranFirst, .inl ⟨fewer, Nat.lt_of_succ_lt_succ few, rest, _, ranRest, stops⟩⟩

end Follows

end Subduction
