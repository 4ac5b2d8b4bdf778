/-
**The drift correction of an initiator.**

A responder that rejects a challenge reports its clock, unsigned. The initiator takes the difference to
its own clock as a number of 64 bits, and adopts it when its absolute value is plausible. Differences of
two clocks need one bit more: those of 2⁶³ seconds have no absolute value, and the largest ones wrap to
small numbers of the other sign.

* **`apply_adjust`** — what is adopted then takes the clock of the initiator to that of the responder.
* **`adjust_exact_iff`**.
-/

import Subduction.Handshake.Message
import Mathlib.Data.UInt

namespace Subduction

/-! ### Signed seconds -/

namespace TimestampSeconds

/-- `TimestampSeconds::signed_diff`: the difference of 128 bits is cut to 64. -/
def signedDiff (timestamp other : TimestampSeconds) : Int64 :=
  Int64.ofInt (timestamp.asSecs - other.asSecs : Int)

/-- `TimestampSeconds::add_signed`, which saturates. -/
def addSigned (timestamp : TimestampSeconds) (offsetSecs : Int64) : TimestampSeconds :=
  if 0 ≤ offsetSecs then ⟨UInt64.ofNat (min (timestamp.asSecs + offsetSecs.toInt.natAbs) (2 ^ 64 - 1))⟩
  else ⟨UInt64.ofNat (timestamp.asSecs - offsetSecs.toInt.natAbs)⟩

variable (timestamp other : TimestampSeconds)

def difference : Int := timestamp.asSecs - other.asSecs

theorem difference_bounds :
    -(2 ^ 64 : Int) < timestamp.difference other ∧ timestamp.difference other < 2 ^ 64 := by
  have first := timestamp.asSecs_lt
  have second := other.asSecs_lt
  unfold difference
  omega

/-- **The difference as the source has it** is the true one up to a multiple of 2⁶⁴. -/
theorem toInt_signedDiff :
    (timestamp.signedDiff other).toInt = (timestamp.difference other).bmod (2 ^ 64) := Int64.toInt_ofInt

end TimestampSeconds

/-- `i64::abs`: the least number has no absolute value. With overflow checks the program ends, without
them it goes on with the number itself. -/
def checkedAbs (overflowChecks : Bool) (value : Int64) : Option Int64 :=
  if value < 0 then
    if value = Int64.minValue && overflowChecks then none else some (-value)
  else some value

/-! ### The correction -/

/-- **What was learned of the drift**: the clock of the responder minus our own. -/
structure DriftCorrection where
  offsetSecs : Int32
deriving DecidableEq

namespace DriftCorrection

/-- `DriftCorrection::new`. -/
def new : DriftCorrection := ⟨0⟩

/-- The bound of `adjust`. -/
def maxDriftSecs : Int64 := min (Int64.ofInt (2 ^ 31 - 1)) (Int64.ofInt maxPlausibleDrift.asSecs)

/-- `DriftCorrection::adjust`; nothing is returned where the program ends. -/
def adjust (overflowChecks : Bool) (correction : DriftCorrection)
    (serverTimestamp clientTimestamp : TimestampSeconds) : Option (DriftCorrection × Bool) :=
  let drift := serverTimestamp.signedDiff clientTimestamp
  match checkedAbs overflowChecks drift with
  | none => none
  | some magnitude =>
    if magnitude > maxDriftSecs then some (correction, false) else some (⟨drift.toInt32⟩, true)

/-- `DriftCorrection::apply`. -/
def apply (correction : DriftCorrection) (timestamp : TimestampSeconds) : TimestampSeconds :=
  timestamp.addSigned correction.offsetSecs.toInt64

/-- **The adjustment is exact**: it returns, it says whether the true difference is plausible, and it
stores that difference or nothing. -/
def Exact (overflowChecks : Bool) (correction : DriftCorrection)
    (serverTimestamp clientTimestamp : TimestampSeconds) : Prop :=
  ∃ after accepted, correction.adjust overflowChecks serverTimestamp clientTimestamp = some (after, accepted) ∧
    (accepted = true ↔
      (serverTimestamp.difference clientTimestamp).natAbs ≤ maxPlausibleDrift.asSecs) ∧
    (accepted = true → after.offsetSecs.toInt = serverTimestamp.difference clientTimestamp) ∧
    (accepted = false → after = correction)

/-- The clocks are not exactly 2⁶³ seconds apart, nor almost 2⁶⁴. -/
def Separable (serverTimestamp clientTimestamp : TimestampSeconds) : Prop :=
  (serverTimestamp.difference clientTimestamp).natAbs ≠ 2 ^ 63 ∧
    (serverTimestamp.difference clientTimestamp).natAbs + maxPlausibleDrift.asSecs < 2 ^ 64

instance (serverTimestamp clientTimestamp : TimestampSeconds) :
    Decidable (Separable serverTimestamp clientTimestamp) :=
  inferInstanceAs (Decidable (_ ∧ _))

/-! ### When the adjustment is exact -/

theorem toInt_maxDriftSecs : maxDriftSecs.toInt = 600 := by decide

theorem asSecs_maxPlausibleDrift : maxPlausibleDrift.asSecs = 600 := by decide

variable {overflowChecks : Bool} {correction : DriftCorrection} {server client : TimestampSeconds}

theorem checkedAbs_eq (overflowChecks : Bool) {value : Int64} (notLeast : value.toInt ≠ -2 ^ 63) :
    ∃ magnitude, checkedAbs overflowChecks value = some magnitude ∧ magnitude.toInt = value.toInt.natAbs := by
  have low := value.le_toInt
  have high := value.toInt_lt
  have isOther : value ≠ Int64.minValue := fun same => notLeast (by rw [same, Int64.toInt_minValue])
  have zero : (0 : Int64).toInt = 0 := rfl
  unfold checkedAbs
  split
  · rename_i negative
    rw [Int64.lt_iff_toInt_lt, zero] at negative
    refine ⟨-value, by simp [isOther], ?_⟩
    rw [Int64.toInt_neg, Int.bmod_eq_of_le (by omega) (by omega)]
    omega
  · rename_i negative
    rw [Int64.lt_iff_toInt_lt, zero] at negative
    exact ⟨value, rfl, by omega⟩

/-- **What the adjustment does** where the difference has an absolute value. -/
theorem adjust_eq (notLeast : (server.signedDiff client).toInt ≠ -2 ^ 63) :
    correction.adjust overflowChecks server client =
      if (server.signedDiff client).toInt.natAbs ≤ 600 then some (⟨(server.signedDiff client).toInt32⟩, true)
      else some (correction, false) := by
  obtain ⟨magnitude, found, isAbs⟩ := checkedAbs_eq overflowChecks notLeast
  have larger : magnitude > maxDriftSecs ↔ ¬ (server.signedDiff client).toInt.natAbs ≤ 600 := by
    rw [gt_iff_lt, Int64.lt_iff_toInt_lt, toInt_maxDriftSecs, isAbs]
    omega
  unfold adjust
  dsimp only
  rw [found]
  dsimp only
  by_cases small : (server.signedDiff client).toInt.natAbs ≤ 600
  · rw [if_pos small, if_neg fun large => larger.mp large small]
  · rw [if_neg small, if_pos (larger.mpr small)]

/-- Clocks 2⁶³ seconds apart: the program ends, or takes them for equal. -/
theorem adjust_least (least : (server.signedDiff client).toInt = -2 ^ 63) :
    correction.adjust overflowChecks server client = if overflowChecks then none else some (⟨0⟩, true) := by
  have isLeast : server.signedDiff client = Int64.minValue :=
    Int64.toInt_inj.mp (least.trans Int64.toInt_minValue.symm)
  unfold adjust
  rw [isLeast]
  cases overflowChecks with
  | true => rfl
  | false => exact if_neg (by decide)

theorem bmod_difference {difference : Int} (low : -(2 ^ 64) < difference) (high : difference < 2 ^ 64) :
    (-2 ^ 63 ≤ difference ∧ difference < 2 ^ 63 ∧ difference.bmod (2 ^ 64) = difference) ∨
    (2 ^ 63 ≤ difference ∧ difference.bmod (2 ^ 64) = difference - 2 ^ 64) ∨
    (difference < -2 ^ 63 ∧ difference.bmod (2 ^ 64) = difference + 2 ^ 64) := by
  unfold Int.bmod
  dsimp only
  split <;> omega

theorem toInt_toInt32 {value : Int64} (small : value.toInt.natAbs ≤ 600) :
    value.toInt32.toInt = value.toInt := by
  rw [Int64.toInt_toInt32]
  exact Int.bmod_eq_of_le (by omega) (by omega)

/-- **The adjustment is exact for the clocks that are separable**, and for no others, in every state and
with or without overflow checks. -/
theorem adjust_exact_iff (overflowChecks : Bool) (correction : DriftCorrection)
    (serverTimestamp clientTimestamp : TimestampSeconds) :
    correction.Exact overflowChecks serverTimestamp clientTimestamp ↔
      Separable serverTimestamp clientTimestamp := by
  obtain ⟨low, high⟩ := serverTimestamp.difference_bounds clientTimestamp
  have wrapped := bmod_difference low high
  rw [← serverTimestamp.toInt_signedDiff clientTimestamp] at wrapped
  unfold Exact Separable
  rw [asSecs_maxPlausibleDrift]
  by_cases least : (serverTimestamp.signedDiff clientTimestamp).toInt = -2 ^ 63
  · -- the clocks are 2⁶³ seconds apart, in one order or the other
    have apart : (serverTimestamp.difference clientTimestamp).natAbs = 2 ^ 63 := by omega
    refine iff_of_false ?_ fun separable => separable.1 apart
    rintro ⟨after, accepted, result, isPlausible, -⟩
    rw [adjust_least least] at result
    cases overflowChecks with
    | true => cases result
    | false =>
      obtain ⟨-, rfl⟩ := Prod.mk.inj (Option.some.inj result)
      have bounded := isPlausible.mp rfl
      omega
  · rw [adjust_eq least]
    by_cases small : (serverTimestamp.signedDiff clientTimestamp).toInt.natAbs ≤ 600
    · rw [if_pos small]
      constructor
      · rintro ⟨after, accepted, result, isPlausible, -⟩
        obtain ⟨-, rfl⟩ := Prod.mk.inj (Option.some.inj result)
        have bounded := isPlausible.mp rfl
        omega
      · intro separable
        have same : (serverTimestamp.signedDiff clientTimestamp).toInt =
            serverTimestamp.difference clientTimestamp := by omega
        refine ⟨_, true, rfl, iff_of_true rfl (same ▸ small), fun _ => ?_, fun no => (by cases no)⟩
        exact (toInt_toInt32 small).trans same
    · rw [if_neg small]
      refine iff_of_true ⟨correction, false, rfl, iff_of_false Bool.false_ne_true ?_, fun no => (by cases no),
        fun _ => rfl⟩ ?_
      · omega
      · omega

theorem adjust_half_range :
    (DriftCorrection.mk 7).adjust true ⟨2 ^ 63 + 1700000000⟩ ⟨1700000000⟩ = none := by decide +kernel

/-- The clock of the initiator is ahead by almost the whole range, or by half of it: a difference that is
not plausible is adopted, and with overflow checks the program ends. -/
theorem implausible_drift_adopted :
    (DriftCorrection.mk 7).adjust true ⟨0⟩ ⟨2 ^ 64 - 1⟩ = some (⟨1⟩, true) ∧
      (DriftCorrection.mk 7).adjust true ⟨2 ^ 63 + 1700000000⟩ ⟨1700000000⟩ = none ∧
      (DriftCorrection.mk 7).adjust false ⟨2 ^ 63 + 1700000000⟩ ⟨1700000000⟩ = some (⟨0⟩, true) ∧
      ¬ (DriftCorrection.mk 7).Exact true ⟨2 ^ 63 + 1700000000⟩ ⟨1700000000⟩ := by
  refine ⟨by decide +kernel, adjust_half_range, by decide +kernel, ?_⟩
  rintro ⟨after, accepted, result, -⟩
  exact absurd (result.symm.trans adjust_half_range) (Option.some_ne_none _)

/-! ### The corrected clock -/

theorem apply_adjust {after : DriftCorrection} (separable : Separable server client)
    (adopted : correction.adjust overflowChecks server client = some (after, true)) :
    after.apply client = server := by
  obtain ⟨low, high⟩ := server.difference_bounds client
  have wrapped := bmod_difference low high
  rw [← server.toInt_signedDiff client] at wrapped
  unfold Separable at separable
  rw [asSecs_maxPlausibleDrift] at separable
  have notLeast : (server.signedDiff client).toInt ≠ -2 ^ 63 := by omega
  rw [adjust_eq notLeast] at adopted
  split at adopted
  · rename_i small
    obtain ⟨rfl, -⟩ := Prod.mk.inj (Option.some.inj adopted)
    have same : (server.signedDiff client).toInt32.toInt64.toInt = server.difference client := by
      rw [Int32.toInt_toInt64, toInt_toInt32 small]
      omega
    have bound := server.asSecs_lt
    have zero : (0 : Int64).toInt = 0 := rfl
    have reach : ∀ secs, secs = server.asSecs → (⟨UInt64.ofNat secs⟩ : TimestampSeconds) = server := by
      rintro secs rfl
      exact congrArg TimestampSeconds.mk UInt64.ofNat_toNat
    unfold apply TimestampSeconds.addSigned
    dsimp only
    rw [same]
    unfold TimestampSeconds.difference
    split
    · rename_i sign
      rw [Int64.le_iff_toInt_le, zero, same, TimestampSeconds.difference] at sign
      refine reach _ ?_
      omega
    · rename_i sign
      rw [Int64.le_iff_toInt_le, zero, same, TimestampSeconds.difference] at sign
      refine reach _ ?_
      omega
  · obtain ⟨-, impossible⟩ := Prod.mk.inj (Option.some.inj adopted)
    cases impossible

theorem apply_adjust_ahead : (DriftCorrection.mk 100).apply ⟨900⟩ = ⟨1000⟩ :=
  @apply_adjust true new ⟨1000⟩ ⟨900⟩ _ (by decide +kernel) (by decide +kernel)

end DriftCorrection

end Subduction
