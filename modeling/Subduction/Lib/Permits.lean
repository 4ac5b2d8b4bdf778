/-
**Semaphores that are found by a name while somebody holds them.**

A registry has a weak reference to the semaphore of a name. A semaphore lives while it is held, by itself
or through one of its permits; one that nobody holds is forgotten, and the next to ask for the name gets a
new one.

* **`Sound.slotsFor`**, **`Sound.acquire`**, **`Sound.release`** — the operations keep `Permits.Sound`.
* **`Sound.countP_le`** — a name has no more permits than one semaphore.
-/

import Mathlib.Data.List.Perm.Basic
import Subduction.Lib.FinMap

set_option linter.unusedSectionVars false

namespace Subduction

open List Function

/-- The weak references by name, the number of semaphores so far, and the free permits of each. -/
structure Permits (K : Type) where
  weak : FinMap K Nat
  next : Nat
  free : Nat → Nat

namespace Permits

variable {K : Type} [DecidableEq K]

/-- The semaphore of the name: the one that is still held, or a new one. -/
def slotsFor (capacity : Nat) (held : List (K × Nat)) (key : K) (permits : Permits K) : Nat × Permits K :=
  match (permits.weak.get? key).filter fun slots => slots ∈ held.map Prod.snd with
  | some slots => (slots, permits)
  | none => (permits.next, ⟨(permits.weak.retain fun _ slots => slots ∈ held.map Prod.snd).insert key
      permits.next, permits.next + 1, Function.update permits.free permits.next capacity⟩)

def acquire (slots : Nat) (permits : Permits K) : Permits K :=
  { permits with free := Function.update permits.free slots (permits.free slots - 1) }

def release (slots : Nat) (permits : Permits K) : Permits K :=
  { permits with free := Function.update permits.free slots (permits.free slots + 1) }

/-- **What holds between the operations**, for the holders of a semaphore and those of a permit. -/
structure Sound (capacity : Nat) (permits : Permits K) (holders taken : List (K × Nat)) : Prop where
  found : ∀ key slots, (key, slots) ∈ holders ++ taken → permits.weak.get? key = some slots
  allocated : ∀ key slots, permits.weak.get? key = some slots → slots < permits.next
  apart : ∀ first second slots, permits.weak.get? first = some slots →
    permits.weak.get? second = some slots → first = second
  counted : ∀ slots < permits.next, permits.free slots + taken.countP (·.2 = slots) = capacity

variable {capacity : Nat} {permits : Permits K} {holders taken others : List (K × Nat)} {key : K} {slots : Nat}

theorem sound_empty (capacity : Nat) : Sound capacity (⟨∅, 0, fun _ => 0⟩ : Permits K) [] [] :=
  ⟨by simp, by simp, by simp, fun _ less => absurd less (Nat.not_lt_zero _)⟩

namespace Sound

variable (sound : Sound capacity permits holders taken)

include sound

theorem congr {fewer moved : List (K × Nat)}
    (subset : fewer ⊆ holders) (perm : taken.Perm moved) : Sound capacity permits fewer moved := by
  refine ⟨fun key slots held => sound.found key slots ?_, sound.allocated, sound.apart, fun slots less => ?_⟩
  · rcases mem_append.mp held with holds | takes
    · exact mem_append_left _ (subset holds)
    · exact mem_append_right _ (perm.mem_iff.mpr takes)
  · rw [← perm.countP_eq]
    exact sound.counted slots less

theorem slotsFor (key : K) : Sound capacity (permits.slotsFor capacity (holders ++ taken) key).2
      ((key, (permits.slotsFor capacity (holders ++ taken) key).1) :: holders) taken := by
  unfold Permits.slotsFor
  cases found : (permits.weak.get? key).filter fun slots => slots ∈ (holders ++ taken).map Prod.snd with
  | some slots =>
    refine ⟨fun other held member => ?_, sound.allocated, sound.apart, sound.counted⟩
    rcases mem_cons.mp member with same | member
    · obtain ⟨rfl, rfl⟩ := Prod.mk.inj same
      exact (Option.filter_eq_some_iff.mp found).1
    · exact sound.found other held member
  | none =>
    -- nobody holds the semaphore of this name, and nobody has the new one
    have absent (slots : Nat) : (key, slots) ∉ holders ++ taken := fun member => by
      have present := Option.filter_eq_none_iff.mp found slots (sound.found key slots member)
      exact present (decide_eq_true (mem_map_of_mem member))
    have older {other : K} {slots : Nat} (stays : (permits.weak.retain fun _ slots =>
        slots ∈ (holders ++ taken).map Prod.snd).get? other = some slots) :
        permits.weak.get? other = some slots := (FinMap.get?_retain_eq_some.mp stays).1
    dsimp only
    refine ⟨fun other slots member => ?_, fun other slots isWeak => ?_, fun first second slots one two => ?_,
      fun slots less => ?_⟩
    · rcases mem_cons.mp member with same | member
      · obtain ⟨rfl, rfl⟩ := Prod.mk.inj same
        exact FinMap.get?_insert_self ..
      · have different : other ≠ key := fun same => absent slots (same ▸ member)
        rw [FinMap.get?_insert_of_ne _ _ different]
        exact FinMap.get?_retain_eq_some.mpr
          ⟨sound.found other slots member, decide_eq_true (mem_map_of_mem member)⟩
    · rcases FinMap.of_get?_insert isWeak with ⟨-, rfl⟩ | ⟨-, earlier⟩
      · exact Nat.lt_succ_self _
      · exact Nat.lt_succ_of_lt (sound.allocated other slots (older earlier))
    · rcases FinMap.of_get?_insert one with ⟨isFirst, rfl⟩ | ⟨-, earlier⟩ <;>
        rcases FinMap.of_get?_insert two with ⟨isSecond, isNext⟩ | ⟨-, earlierToo⟩
      · rw [isFirst, isSecond]
      · exact absurd (sound.allocated _ _ (older earlierToo)) (lt_irrefl _)
      · exact absurd (sound.allocated _ _ (older earlier)) (isNext ▸ lt_irrefl _)
      · exact sound.apart first second slots (older earlier) (older earlierToo)
    · dsimp only at less ⊢
      by_cases isNew : slots = permits.next
      · have none : taken.countP (fun permit => permit.2 = slots) = 0 := by
          refine countP_eq_zero.mpr fun permit member same => ?_
          have below := sound.allocated _ _ (sound.found permit.1 permit.2 (mem_append_right _ member))
          rw [of_decide_eq_true same, isNew] at below
          exact lt_irrefl _ below
        rw [none, isNew, update_self, Nat.add_zero]
      · rw [update_of_ne isNew]
        exact sound.counted slots (lt_of_le_of_ne (Nat.le_of_lt_succ less) isNew)

theorem acquire (holds : (key, slots) ∈ holders) (isFree : 0 < permits.free slots) :
    Sound capacity (permits.acquire slots) holders ((key, slots) :: taken) := by
  refine ⟨fun other held member => ?_, sound.allocated, sound.apart, fun other less => ?_⟩
  · rcases mem_append.mp member with member | member
    · exact sound.found other held (mem_append_left _ member)
    · rcases mem_cons.mp member with same | member
      · cases same
        exact sound.found key slots (mem_append_left _ holds)
      · exact sound.found other held (mem_append_right _ member)
  · have counted := sound.counted other less
    unfold Permits.acquire
    by_cases same : other = slots
    · subst same
      simp only [update_self, countP_cons, decide_true, if_true]
      omega
    · simp only [update_of_ne same, countP_cons, Ne.symm same, decide_false,
        Bool.false_eq_true, if_false]
      exact counted

theorem release {permit : K × Nat}
    (perm : taken.Perm (permit :: others)) : Sound capacity (permits.release permit.2) holders others := by
  refine ⟨fun other held member => sound.found other held ?_, sound.allocated, sound.apart, fun other less => ?_⟩
  · rcases mem_append.mp member with member | member
    · exact mem_append_left _ member
    · exact mem_append_right _ (perm.mem_iff.mpr (mem_cons_of_mem _ member))
  · have counted := sound.counted other less
    rw [perm.countP_eq, countP_cons] at counted
    unfold Permits.release
    by_cases same : other = permit.2
    · subst same
      simp only [update_self, decide_true, if_true] at counted ⊢
      omega
    · simp only [update_of_ne same, Ne.symm same, decide_false, Bool.false_eq_true,
        if_false] at counted ⊢
      exact counted

theorem countP_le (key : K) : taken.countP (·.1 = key) ≤ capacity := by
  cases found : permits.weak.get? key with
  | none =>
    refine (countP_eq_zero.mpr fun permit member same => ?_).le.trans (Nat.zero_le _)
    have held := sound.found permit.1 permit.2 (mem_append_right _ member)
    rw [of_decide_eq_true same, found] at held
    cases held
  | some slots =>
    refine (countP_mono_left fun permit member same => ?_).trans
      ((Nat.le_add_left _ _).trans (sound.counted slots (sound.allocated key slots found)).le)
    have held := sound.found permit.1 permit.2 (mem_append_right _ member)
    rw [of_decide_eq_true same, found] at held
    exact decide_eq_true (Option.some.inj held).symm

end Sound

end Permits

end Subduction
