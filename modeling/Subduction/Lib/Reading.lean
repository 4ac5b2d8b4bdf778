/-
**Readers that move a cursor over a buffer.**

A reader returns a value and the new position of the cursor, or fails. What a reader accepts is said
once, as the *forms* a value may have in the buffer.

* **`Reads.bind`**, **`Reads.times`** — the forms of a sequence and of a repetition of readers.
-/

import Mathlib.Data.List.Forall2
import Mathlib.Data.List.TakeDrop

namespace Subduction

open List

/-! ### A list at a position of another -/

section Positions

variable {σ : Type}

theorem append_isPrefix_drop {front back buf : List σ} {start : Nat} :
    front ++ back <+: buf.drop start ↔
      front <+: buf.drop start ∧ back <+: buf.drop (start + front.length) := by
  rw [← drop_drop]
  constructor
  · rintro ⟨rest, split⟩
    refine ⟨⟨back ++ rest, by rw [← split, append_assoc]⟩, ⟨rest, ?_⟩⟩
    rw [← split, append_assoc, drop_left]
  · rintro ⟨⟨rest, split⟩, behind⟩
    rw [← split, drop_left] at behind
    rw [← split]
    exact (prefix_append_right_inj front).mpr behind

/-- What stands at a position inside the buffer, or is not empty, ends inside the buffer. -/
theorem isPrefix_drop_length {front buf : List σ} {start : Nat}
    (inside : 0 < front.length ∨ start ≤ buf.length) (stands : front <+: buf.drop start) :
    start + front.length ≤ buf.length := by
  have size := stands.length_le
  rw [length_drop] at size
  omega

/-- The list of a given length at a position is cut out of the buffer. -/
theorem isPrefix_drop_iff_take {front buf : List σ} {start size : Nat} (length : front.length = size)
    (positive : 0 < size) :
    front <+: buf.drop start ↔ start + size ≤ buf.length ∧ (buf.drop start).take size = front := by
  subst length
  constructor
  · intro stands
    exact ⟨isPrefix_drop_length (.inl positive) stands, (prefix_iff_eq_take.mp stands).symm⟩
  · rintro ⟨_, cut⟩
    rw [← cut]
    exact take_prefix _ _

end Positions

/-! ### Readers -/

/-- **A reader that moves a cursor.** -/
abbrev Cursor (ε α : Type) : Type := StateT Nat (Except ε) α

namespace Cursor

variable {ε α : Type}

/-- Read a value at the cursor, and move the cursor by the size of what was read. -/
def reading (read : Nat → Except ε (α × Nat)) : Cursor ε α := fun start =>
  match read start with
  | .ok (value, size) => .ok (value, start + size)
  | .error failure => .error failure

/-- The values of `count` runs of a reader. -/
def times (reader : Cursor ε α) : Nat → Cursor ε (List α)
  | 0 => pure []
  | count + 1 => do
      let first ← reader
      let rest ← times reader count
      pure (first :: rest)

end Cursor

/-- The value has one form, under a condition. -/
def Written {α σ : Type} (good : α → Prop) (write : α → List σ) (value : α) (form : List σ) : Prop :=
  good value ∧ form = write value

/-- **What a reader accepts**: inside the buffer it returns a value exactly where one of its forms
stands, and stops behind that form. -/
def Reads {ε α σ : Type} (buf : List σ) (reader : Cursor ε α) (Form : α → List σ → Prop) : Prop :=
  ∀ start ≤ buf.length, ∀ value stop, reader.run start = .ok (value, stop) ↔
    ∃ form, Form value form ∧ form <+: buf.drop start ∧ stop = start + form.length

namespace Reads

variable {ε α β σ : Type} {buf : List σ}

theorem congr {reader : Cursor ε α} {Form Form' : α → List σ → Prop} (reads : Reads buf reader Form)
    (same : ∀ value form, Form value form ↔ Form' value form) : Reads buf reader Form' := by
  intro start inside value stop
  rw [reads start inside value stop]
  simp only [same]

/-- Reading at the cursor accepts what reading at a position accepts. -/
theorem reading {read : Nat → Except ε (α × Nat)} {Form : α → List σ → Prop}
    (accepts : ∀ start ≤ buf.length, ∀ value size, read start = .ok (value, size) ↔
      ∃ form, Form value form ∧ form <+: buf.drop start ∧ size = form.length) :
    Reads buf (Cursor.reading read) Form := by
  intro start inside value stop
  show Cursor.reading read start = _ ↔ _
  unfold Cursor.reading
  constructor
  · intro done
    split at done
    · rename_i found size result
      obtain ⟨rfl, rfl⟩ := Prod.mk.inj (Except.ok.inj done)
      obtain ⟨form, shaped, stands, rfl⟩ := (accepts start inside found size).mp result
      exact ⟨form, shaped, stands, rfl⟩
    · cases done
  · rintro ⟨form, shaped, stands, rfl⟩
    rw [(accepts start inside value form.length).mpr ⟨form, shaped, stands, rfl⟩]

theorem pure (result : α) :
    Reads buf (Pure.pure result : Cursor ε α) fun value form => value = result ∧ form = [] := by
  intro start _ value stop
  constructor
  · intro done
    obtain ⟨rfl, rfl⟩ := Prod.mk.inj (Except.ok.inj done)
    exact ⟨[], ⟨rfl, rfl⟩, nil_prefix, rfl⟩
  · rintro ⟨form, ⟨rfl, rfl⟩, _, rfl⟩
    rfl

theorem throw (failure : ε) :
    Reads buf (MonadExcept.throw failure : Cursor ε α) fun _ _ => False := by
  intro start _ value stop
  constructor
  · intro done
    cases done
  · rintro ⟨_, impossible, _⟩
    exact impossible.elim

theorem bind {first : Cursor ε α} {next : α → Cursor ε β} {Form : α → List σ → Prop}
    {Form' : α → β → List σ → Prop} (reads : Reads buf first Form)
    (readsNext : ∀ value, Reads buf (next value) (Form' value)) :
    Reads buf (first >>= next) fun result form =>
      ∃ value front back, Form value front ∧ Form' value result back ∧ form = front ++ back := by
  intro start inside result stop
  rw [StateT.run_bind]
  constructor
  · intro done
    cases ran : first.run start with
    | error failure =>
      rw [ran] at done
      cases done
    | ok middle =>
      obtain ⟨value, position⟩ := middle
      rw [ran] at done
      obtain ⟨front, shaped, stands, rfl⟩ := (reads start inside value position).mp ran
      have insideNext := isPrefix_drop_length (.inr inside) stands
      obtain ⟨back, shaped', stands', rfl⟩ := (readsNext value _ insideNext result stop).mp done
      refine ⟨front ++ back, ⟨value, front, back, shaped, shaped', rfl⟩, ?_, ?_⟩
      · exact append_isPrefix_drop.mpr ⟨stands, stands'⟩
      · rw [length_append, Nat.add_assoc]
  · rintro ⟨_, ⟨value, front, back, shaped, shaped', rfl⟩, stands, rfl⟩
    obtain ⟨standsFront, standsBack⟩ := append_isPrefix_drop.mp stands
    have insideNext := isPrefix_drop_length (.inr inside) standsFront
    rw [(reads start inside value _).mpr ⟨front, shaped, standsFront, rfl⟩]
    refine (readsNext value _ insideNext result _).mpr ⟨back, shaped', standsBack, ?_⟩
    rw [length_append, Nat.add_assoc]

theorem times {reader : Cursor ε α} {Form : α → List σ → Prop} (reads : Reads buf reader Form)
    (count : Nat) :
    Reads buf (reader.times count) fun values form => values.length = count ∧
      ∃ forms, List.Forall₂ Form values forms ∧ form = forms.flatten := by
  induction count with
  | zero =>
    refine (Reads.pure []).congr fun values form => ?_
    constructor
    · rintro ⟨rfl, rfl⟩
      exact ⟨rfl, [], .nil, rfl⟩
    · rintro ⟨none, forms, each, rfl⟩
      obtain rfl := length_eq_zero_iff.mp none
      cases each
      exact ⟨rfl, rfl⟩
  | succ count ih =>
    refine (reads.bind fun first => ih.bind fun rest => Reads.pure (first :: rest)).congr
      fun values form => ?_
    constructor
    · rintro ⟨first, front, _, shaped, ⟨rest, back, _, ⟨size, forms, each, rfl⟩, ⟨rfl, rfl⟩, rfl⟩, rfl⟩
      refine ⟨by rw [length_cons, size], front :: forms, .cons shaped each, ?_⟩
      rw [flatten_cons, append_nil]
    · rintro ⟨size, forms, each, rfl⟩
      cases each with
      | nil => cases size
      | @cons first front rest forms shaped each =>
        refine ⟨first, front, forms.flatten, shaped, ⟨rest, forms.flatten, [], ?_, ⟨rfl, rfl⟩, ?_⟩, ?_⟩
        · exact ⟨Nat.succ.inj size, forms, each, rfl⟩
        · rw [append_nil]
        · rw [flatten_cons]

end Reads

theorem forall₂_written {α σ : Type} {good : α → Prop} {write : α → List σ} {values : List α}
    {form : List σ} :
    (∃ forms, List.Forall₂ (Written good write) values forms ∧ form = forms.flatten) ↔
      (∀ value ∈ values, good value) ∧ form = values.flatMap write := by
  induction values generalizing form with
  | nil =>
    constructor
    · rintro ⟨forms, each, rfl⟩
      cases each
      exact ⟨fun _ member => absurd member not_mem_nil, rfl⟩
    · rintro ⟨_, rfl⟩
      exact ⟨[], .nil, rfl⟩
  | cons value values ih =>
    constructor
    · rintro ⟨forms, each, rfl⟩
      cases each with
      | @cons _ _ _ forms shaped each =>
        obtain ⟨allGood, rest⟩ := ih.mp ⟨forms, each, rfl⟩
        refine ⟨forall_mem_cons.mpr ⟨shaped.1, allGood⟩, ?_⟩
        rw [flatten_cons, flatMap_cons, shaped.2, rest]
    · rintro ⟨allGood, rfl⟩
      obtain ⟨first, rest⟩ := forall_mem_cons.mp allGood
      obtain ⟨forms, each, flat⟩ := ih.mpr ⟨rest, rfl⟩
      refine ⟨write value :: forms, .cons ⟨first, rfl⟩ each, ?_⟩
      rw [flatMap_cons, flatten_cons, flat]

theorem Reads.times_written {ε α σ : Type} {buf : List σ} {reader : Cursor ε α} {good : α → Prop}
    {write : α → List σ} (reads : Reads buf reader (Written good write)) (count : Nat) :
    Reads buf (reader.times count) fun values form =>
      values.length = count ∧ (∀ value ∈ values, good value) ∧ form = values.flatMap write :=
  (reads.times count).congr fun _ _ => and_congr_right fun _ => forall₂_written

/-- Lists of values with prefix-free forms are determined by what is written for them. -/
theorem flatMap_injOn_of_prefixFree {α σ : Type} {good : α → Prop} {write : α → List σ}
    (free : ∀ buf first second, good first → good second → write first <+: buf → write second <+: buf →
      first = second) (nonempty : ∀ value, good value → write value ≠ []) {first second : List α}
    (firstGood : ∀ value ∈ first, good value) (secondGood : ∀ value ∈ second, good value)
    (same : first.flatMap write = second.flatMap write) : first = second := by
  induction first generalizing second with
  | nil =>
    cases second with
    | nil => rfl
    | cons value rest =>
      have empty := (append_eq_nil_iff.mp same.symm).1
      exact absurd empty (nonempty value (secondGood value mem_cons_self))
  | cons value rest ih =>
    cases second with
    | nil =>
      have empty := (append_eq_nil_iff.mp same).1
      exact absurd empty (nonempty value (firstGood value mem_cons_self))
    | cons value' rest' =>
      obtain ⟨headGood, restGood⟩ := forall_mem_cons.mp firstGood
      obtain ⟨headGood', restGood'⟩ := forall_mem_cons.mp secondGood
      rw [flatMap_cons, flatMap_cons] at same
      obtain rfl := free (write value ++ rest.flatMap write) value value' headGood headGood'
        (prefix_append _ _) (same ▸ prefix_append _ _)
      rw [ih restGood restGood' (append_cancel_left same)]

/-- Values of one size are determined by what is written for them, one after the other. -/
theorem flatMap_injective_of_length {α σ : Type} {write : α → List σ} {size : Nat} (positive : 0 < size)
    (length : ∀ value, (write value).length = size) (injective : Function.Injective write)
    {first second : List α} (same : first.flatMap write = second.flatMap write) : first = second := by
  refine @flatMap_injOn_of_prefixFree α σ (fun _ => True) write (fun buf one two _ _ atOne atTwo => ?_)
    (fun value _ empty => ?_) _ _ (fun _ _ => trivial) (fun _ _ => trivial) same
  · have sizes : (write one).length = (write two).length := (length one).trans (length two).symm
    exact injective ((prefix_of_prefix_length_le atOne atTwo (Nat.le_of_eq sizes)).eq_of_length sizes)
  · rw [← length value, empty] at positive
    exact Nat.lt_irrefl _ positive

theorem Reads.wrapped {ε α β σ : Type} {buf : List σ} {reader : Cursor ε α} {good : α → Prop}
    {write : α → List σ} {mk : α → β} {get : β → α} (get_mk : ∀ value, get (mk value) = value)
    (mk_get : ∀ value, mk (get value) = value) (reads : Reads buf reader (Written good write)) :
    Reads buf (reader >>= fun value => Pure.pure (mk value))
      (Written (fun value => good (get value)) fun value => write (get value)) := by
  refine (reads.bind fun value => Reads.pure (mk value)).congr fun result form => ?_
  constructor
  · rintro ⟨value, _, _, ⟨isGood, rfl⟩, ⟨rfl, rfl⟩, rfl⟩
    show good (get (mk value)) ∧ write value ++ [] = write (get (mk value))
    rw [get_mk, append_nil]
    exact ⟨isGood, rfl⟩
  · rintro ⟨isGood, rfl⟩
    refine ⟨get result, write (get result), [], ⟨isGood, rfl⟩, ⟨(mk_get result).symm, rfl⟩, ?_⟩
    rw [append_nil]

end Subduction
