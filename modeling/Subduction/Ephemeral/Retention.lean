/-
**How long the nonce cache remembers.**

A nonce is kept for a window after it was accepted. It is then dropped by the second rotation after its
acceptance, and a rotation takes place only when a call comes more than a window after the last one. A
call that comes late, up to two windows after the start of the bucket, moves the bucket of the nonce to
the previous one as late, and the nonce is refused for another window.

* **`Phase.gcBuckets`**, **`Phase.has_gcBuckets_iff`** — the phases under a rotation, and when a call more
  than two windows after the acceptance still finds the nonce.
* **`accepted_after_three_windows`** — after three windows it is accepted in any case.
* **`retention_iff`**.
-/

import Subduction.Ephemeral.NonceCache

namespace Subduction

open TimestampSeconds List Finset

/-! ### Buckets -/

section Buckets

variable {buckets : NonceBuckets} {nonce other : UInt64} {time now : TimestampSeconds} {window : Duration}

/-- **Where a nonce is that was accepted at the time**: in the bucket that began at most a window
before, in the same bucket after the next rotation, or dropped by a later one. -/
inductive Phase (window : Duration) (nonce : UInt64) (time : TimestampSeconds) (buckets : NonceBuckets) :
    Prop where
  | current (inCurrent : nonce ∈ buckets.current.nonces)
      (began : buckets.current.rotatedAt.asSecs ≤ time.asSecs)
      (within : (buckets.current.rotatedAt.absDiff time).nanos ≤ window.nanos)
  | previous (left : nonce ∉ buckets.current.nonces) (inPrevious : nonce ∈ buckets.previous.nonces)
      (began : buckets.previous.rotatedAt.asSecs ≤ time.asSecs)
      (ended : time.asSecs < buckets.current.rotatedAt.asSecs)
      (soon : (time.absDiff buckets.current.rotatedAt).nanos ≤ window.nanos * 2)
  | gone (dropped : ¬ buckets.Has nonce) (afterPrevious : time.asSecs < buckets.previous.rotatedAt.asSecs)
      (afterCurrent : time.asSecs < buckets.current.rotatedAt.asSecs)

/-- The previous bucket is the one of the time, and the current one is at most a window old. -/
def NonceBuckets.Late (window : Duration) (buckets : NonceBuckets) (time now : TimestampSeconds) : Prop :=
  buckets.previous.rotatedAt.asSecs ≤ time.asSecs ∧ time.asSecs < buckets.current.rotatedAt.asSecs ∧
    (buckets.current.rotatedAt.absDiff now).nanos ≤ window.nanos

instance (window : Duration) (buckets : NonceBuckets) (time now : TimestampSeconds) :
    Decidable (buckets.Late window time now) :=
  inferInstanceAs (Decidable (_ ∧ _ ∧ _))

theorem lt_of_window {start first second size : Nat} (within : (first - start) * 1000000000 ≤ size)
    (older : size < (second - start) * 1000000000) : first < second := by
  omega

theorem not_has_new (now later : TimestampSeconds) : ¬ NonceBuckets.Has ⟨.new now, .new later⟩ nonce :=
  fun has => has.elim (fun inCurrent => notMem_empty _ inCurrent) fun inPrevious =>
    notMem_empty _ inPrevious

theorem not_has_rotated (left : nonce ∉ buckets.current.nonces) :
    ¬ NonceBuckets.Has ⟨.new now, buckets.current⟩ nonce :=
  fun has => has.elim (fun inCurrent => notMem_empty _ inCurrent) left

variable (phase : Phase window nonce time buckets)

include phase

theorem Phase.gcBuckets (past : time.asSecs ≤ now.asSecs)
    (began : buckets.current.rotatedAt.asSecs ≤ now.asSecs) :
    Phase window nonce time (gcBuckets buckets now window) := by
  have age := nanos_absDiff began
  rw [gcBuckets_eq, age]
  cases phase with
  | current inCurrent before within =>
    have sinceStart := within
    rw [nanos_absDiff before] at sinceStart
    split
    · rename_i veryOld
      have older : window.nanos < (now.asSecs - buckets.current.rotatedAt.asSecs) * 1000000000 :=
        (Nat.le_mul_of_pos_right _ two_pos).trans_lt veryOld
      have later := lt_of_window sinceStart older
      exact .gone (not_has_new _ _) later later
    · rename_i notVeryOld
      split
      · rename_i older
        refine .previous (notMem_empty _) inCurrent before (lt_of_window sinceStart older) ?_
        show (time.absDiff now).nanos ≤ _
        rw [nanos_absDiff past]
        refine (Nat.mul_le_mul_right _ ?_).trans (Nat.not_lt.mp notVeryOld)
        exact Nat.sub_le_sub_left before _
      · exact .current inCurrent before within
  | previous left inPrevious before ended soon =>
    have later := ended.trans_le began
    split
    · exact .gone (not_has_new _ _) later later
    · split
      · exact .gone (not_has_rotated left) ended later
      · exact .previous left inPrevious before ended soon
  | gone dropped afterPrevious afterCurrent =>
    have later := afterCurrent.trans_le began
    split
    · exact .gone (not_has_new _ _) later later
    · split
      · exact .gone (not_has_rotated fun inCurrent => dropped (.inl inCurrent)) afterCurrent later
      · exact .gone dropped afterPrevious afterCurrent

theorem Phase.insert (different : other ≠ nonce) :
    Phase window nonce time (buckets.insert other) := by
  have same : nonce ∈ (buckets.insert other).current.nonces ↔ nonce ∈ buckets.current.nonces := by
    refine mem_insert.trans (or_iff_right fun isOther => different isOther.symm)
  cases phase with
  | current inCurrent before within => exact .current (same.mpr inCurrent) before within
  | previous left inPrevious before ended soon =>
    exact .previous (fun inCurrent => left (same.mp inCurrent)) inPrevious before ended soon
  | gone dropped afterPrevious afterCurrent =>
    exact .gone (fun has => dropped (has.imp_left same.mp)) afterPrevious afterCurrent

theorem Phase.has_gcBuckets_iff (past : time.asSecs ≤ now.asSecs) (began : buckets.current.rotatedAt.asSecs ≤ now.asSecs)
    (late : window.nanos * 2 < (time.absDiff now).nanos) :
    (Subduction.gcBuckets buckets now window).Has nonce ↔ buckets.Late window time now := by
  have age := nanos_absDiff began
  rw [nanos_absDiff past] at late
  rw [gcBuckets_eq, NonceBuckets.Late, age]
  cases phase with
  | current inCurrent before within =>
    have veryOld : window.nanos * 2 < (now.asSecs - buckets.current.rotatedAt.asSecs) * 1000000000 :=
      late.trans_le (Nat.mul_le_mul_right _ (Nat.sub_le_sub_left before _))
    rw [if_pos veryOld]
    exact iff_of_false (not_has_new _ _) fun isLate => absurd isLate.2.1 (Nat.not_lt.mpr before)
  | previous left inPrevious before ended soon =>
    split
    · rename_i veryOld
      refine iff_of_false (not_has_new _ _) fun isLate => absurd isLate.2.2 (Nat.not_le.mpr ?_)
      exact (Nat.le_mul_of_pos_right _ two_pos).trans_lt veryOld
    · split
      · rename_i older
        exact iff_of_false (not_has_rotated left) fun isLate => absurd isLate.2.2 (Nat.not_le.mpr older)
      · rename_i notOlder
        exact iff_of_true (.inr inPrevious) ⟨before, ended, Nat.not_lt.mp notOlder⟩
  | gone dropped afterPrevious afterCurrent =>
    refine iff_of_false ?_ fun isLate => absurd isLate.1 (Nat.not_le.mpr afterPrevious)
    split
    · exact not_has_new _ _
    · split
      · exact not_has_rotated fun inCurrent => dropped (.inl inCurrent)
      · exact dropped

end Buckets

/-! ### Sequences of calls for one sender and topic -/

/-- A call of `check_and_insert`. -/
structure NonceCall where
  nonce : UInt64
  now : TimestampSeconds
deriving DecidableEq

namespace EphemeralNonceCache

variable {cache : EphemeralNonceCache} {sender : PeerId} {topic : Topic} {nonce : UInt64}
  {time now : TimestampSeconds} {calls : List NonceCall} {call : NonceCall}

/-- Whether the call answers that the nonce is new. -/
def accepts (cache : EphemeralNonceCache) (sender : PeerId) (topic : Topic) (call : NonceCall) : Bool :=
  (cache.checkAndInsert sender topic call.nonce call.now).2

def after (cache : EphemeralNonceCache) (sender : PeerId) (topic : Topic) (calls : List NonceCall) :
    EphemeralNonceCache :=
  calls.foldl (fun cache call => (cache.checkAndInsert sender topic call.nonce call.now).1) cache

def NotInserted (sender : PeerId) (topic : Topic) (nonce : UInt64) :
    EphemeralNonceCache → List NonceCall → Prop
  | _, [] => True
  | cache, call :: calls => (call.nonce = nonce → cache.accepts sender topic call = false) ∧
      NotInserted sender topic nonce (cache.checkAndInsert sender topic call.nonce call.now).1 calls

instance decidableNotInserted (sender : PeerId) (topic : Topic) (nonce : UInt64) :
    ∀ (cache : EphemeralNonceCache) (calls : List NonceCall),
      Decidable (NotInserted sender topic nonce cache calls)
  | _, [] => .isTrue trivial
  | cache, call :: calls =>
    have := decidableNotInserted sender topic nonce
      (cache.checkAndInsert sender topic call.nonce call.now).1 calls
    inferInstanceAs (Decidable (_ ∧ _))

def InTime (calls : List NonceCall) : Prop :=
  calls.Pairwise fun first second => first.now.asSecs ≤ second.now.asSecs

instance (calls : List NonceCall) : Decidable (InTime calls) :=
  inferInstanceAs (Decidable (List.Pairwise _ _))

/-- The buckets of the pair are late for a nonce that was accepted at the time. -/
def Late (cache : EphemeralNonceCache) (sender : PeerId) (topic : Topic) (time now : TimestampSeconds) :
    Prop :=
  ∃ buckets ∈ cache.windows.get? (sender, topic), buckets.Late cache.windowDuration time now

/-- The phase of a nonce in the buckets of the pair. -/
def InPhase (cache : EphemeralNonceCache) (sender : PeerId) (topic : Topic) (nonce : UInt64)
    (time : TimestampSeconds) : Prop :=
  ∃ buckets, cache.windows.get? (sender, topic) = some buckets ∧
    Phase cache.windowDuration nonce time buckets

theorem rotated_of_get? {buckets : NonceBuckets} (found : cache.windows.get? (sender, topic) = some buckets) :
    cache.rotated sender topic now = gcBuckets buckets now cache.windowDuration := by
  rw [rotated, found, Option.getD_some]

theorem inPhase_of_accepted (accepted : cache.accepts sender topic call = true)
    (behind : cache.Behind call.now) :
    (cache.checkAndInsert sender topic call.nonce call.now).1.InPhase sender topic call.nonce call.now := by
  refine ⟨(cache.rotated sender topic call.now).insert call.nonce, ?_, ?_⟩
  · refine (FinMap.get?_insert_self _ _ _).trans (congrArg some ?_)
    exact written_of_new (checkAndInsert_eq_true.mp accepted)
  · obtain ⟨began, within⟩ := behind.rotated sender topic
    refine .current (mem_insert_self _ _) ?_ ?_
    · rwa [NonceBuckets.rotatedAt_insert]
    · rwa [NonceBuckets.rotatedAt_insert]

theorem InPhase.checkAndInsert (inPhase : cache.InPhase sender topic nonce time)
    (behind : cache.Behind call.now) (past : time.asSecs ≤ call.now.asSecs)
    (notInserted : call.nonce = nonce → cache.accepts sender topic call = false) :
    (cache.checkAndInsert sender topic call.nonce call.now).1.InPhase sender topic nonce time := by
  obtain ⟨buckets, found, phase⟩ := inPhase
  have rotatedPhase := phase.gcBuckets past (behind _ _ found)
  rw [← rotated_of_get? found] at rotatedPhase
  refine ⟨_, FinMap.get?_insert_self _ _ _, ?_⟩
  by_cases has : (cache.rotated sender topic call.now).Has call.nonce
  · rw [written_of_has has]
    exact rotatedPhase
  · rw [written_of_new has]
    refine rotatedPhase.insert fun same => ?_
    exact absurd ((notInserted same).symm.trans (checkAndInsert_eq_true.mpr has)) nofun

theorem Behind.after (behind : ∀ call ∈ calls, cache.Behind call.now) (beforeLast : cache.Behind now)
    (clock : InTime calls) (last : ∀ call ∈ calls, call.now.asSecs ≤ now.asSecs) :
    (cache.after sender topic calls).Behind now := by
  induction calls generalizing cache with
  | nil => exact beforeLast
  | cons call calls hypothesis =>
    have began : (cache.checkAndInsert sender topic call.nonce call.now).1.Behind call.now :=
      (behind call mem_cons_self).checkAndInsert
    obtain ⟨first, rest⟩ := pairwise_cons.mp clock
    exact hypothesis (fun later member => began.mono (first later member))
      (began.mono (last call mem_cons_self)) rest fun later member =>
        last later (mem_cons_of_mem _ member)

theorem windowDuration_after (calls : List NonceCall) :
    (cache.after sender topic calls).windowDuration = cache.windowDuration := by
  induction calls generalizing cache with
  | nil => rfl
  | cons call calls hypothesis => exact hypothesis.trans windowDuration_checkAndInsert

theorem InPhase.after (inPhase : cache.InPhase sender topic nonce time)
    (behind : ∀ call ∈ calls, cache.Behind call.now) (clock : InTime calls)
    (past : ∀ call ∈ calls, time.asSecs ≤ call.now.asSecs)
    (notInserted : NotInserted sender topic nonce cache calls) :
    (cache.after sender topic calls).InPhase sender topic nonce time := by
  induction calls generalizing cache with
  | nil => exact inPhase
  | cons call calls hypothesis =>
    have began := behind call mem_cons_self
    obtain ⟨first, rest⟩ := pairwise_cons.mp clock
    refine hypothesis (inPhase.checkAndInsert began (past call mem_cons_self) notInserted.1)
      (fun later member => began.checkAndInsert.mono (first later member)) rest
      (fun later member => past later (mem_cons_of_mem _ member)) notInserted.2

theorem Keeps.after (keeps : cache.Keeps sender topic nonce time)
    (behind : ∀ call ∈ calls, cache.Behind call.now) (clock : InTime calls)
    (within : ∀ call ∈ calls, time.asSecs ≤ call.now.asSecs ∧
      (time.absDiff call.now).nanos ≤ cache.windowDuration.nanos) :
    (cache.after sender topic calls).Keeps sender topic nonce time := by
  induction calls generalizing cache with
  | nil => exact keeps
  | cons call calls hypothesis =>
    have began := behind call mem_cons_self
    obtain ⟨past, recent⟩ := within call mem_cons_self
    obtain ⟨first, rest⟩ := pairwise_cons.mp clock
    refine hypothesis (keeps.checkAndInsert began past recent)
      (fun later member => began.checkAndInsert.mono (first later member)) rest ?_
    rw [windowDuration_checkAndInsert]
    exact fun later member => within later (mem_cons_of_mem _ member)

/-- What the later calls of a sequence find. -/
structure Later (cache : EphemeralNonceCache) (sender : PeerId) (topic : Topic) (first : NonceCall)
    (middle : List NonceCall) (last : NonceCall) : Prop where
  behind : ∀ call ∈ middle, (cache.checkAndInsert sender topic first.nonce first.now).1.Behind call.now
  behindLast : (cache.after sender topic (first :: middle)).Behind last.now
  clock : InTime middle
  past : ∀ call ∈ middle, first.now.asSecs ≤ call.now.asSecs
  pastLast : first.now.asSecs ≤ last.now.asSecs
  beforeLast : ∀ call ∈ middle, call.now.asSecs ≤ last.now.asSecs

variable {first last : NonceCall} {middle : List NonceCall}

theorem later_of_inTime
    (clock : InTime (first :: (middle ++ [last]))) (behind : cache.Behind first.now) :
    cache.Later sender topic first middle last := by
  obtain ⟨fromFirst, rest⟩ := pairwise_cons.mp clock
  obtain ⟨inMiddle, _, beforeLast⟩ := pairwise_append.mp rest
  have began : (cache.checkAndInsert sender topic first.nonce first.now).1.Behind first.now :=
    behind.checkAndInsert
  have past : ∀ call ∈ middle, first.now.asSecs ≤ call.now.asSecs := fun call member =>
    fromFirst call (mem_append_left _ member)
  have pastLast : first.now.asSecs ≤ last.now.asSecs :=
    fromFirst last (mem_append_right _ mem_cons_self)
  have last' : ∀ call ∈ middle, call.now.asSecs ≤ last.now.asSecs := fun call member =>
    beforeLast call member last mem_cons_self
  have behindMiddle : ∀ call ∈ middle,
      (cache.checkAndInsert sender topic first.nonce first.now).1.Behind call.now := fun call member =>
    began.mono (past call member)
  refine ⟨behindMiddle, ?_, inMiddle, past, pastLast, last'⟩
  show ((cache.checkAndInsert sender topic first.nonce first.now).1.after sender topic middle).Behind _
  exact Behind.after behindMiddle (began.mono pastLast) inMiddle last'

section

variable (later : cache.Later sender topic first middle last) (behind : cache.Behind first.now)

include later behind

variable (accepted : cache.accepts sender topic first = true)

include accepted

theorem Later.refused (same : last.nonce = first.nonce)
    (recent : (first.now.absDiff last.now).nanos ≤ cache.windowDuration.nanos) :
    (cache.after sender topic (first :: middle)).accepts sender topic last = false := by
  have keeps := Keeps.after (keeps_of_accepted accepted behind) later.behind later.clock
    fun call member => ⟨later.past call member, (nanos_absDiff_mono
      (later.past call member) (later.beforeLast call member)).trans recent⟩
  rw [← Bool.not_eq_true, accepts, same]
  refine checkAndInsert_of_keeps keeps later.behindLast later.pastLast ?_
  rw [windowDuration_after]
  exact recent

theorem Later.phase (notInserted : NotInserted sender topic first.nonce
      (cache.checkAndInsert sender topic first.nonce first.now).1 middle) :
    ∃ buckets, (cache.after sender topic (first :: middle)).windows.get? (sender, topic) = some buckets ∧
      Phase cache.windowDuration first.nonce first.now buckets ∧
      buckets.current.rotatedAt.asSecs ≤ last.now.asSecs := by
  obtain ⟨buckets, found, phase⟩ := (inPhase_of_accepted accepted behind).after later.behind later.clock
    later.past notInserted
  rw [windowDuration_after, windowDuration_checkAndInsert] at phase
  exact ⟨buckets, found, phase, later.behindLast _ _ found⟩

theorem Later.accepts_iff (same : last.nonce = first.nonce)
    (notInserted : NotInserted sender topic first.nonce
      (cache.checkAndInsert sender topic first.nonce first.now).1 middle)
    (late : cache.windowDuration.nanos * 2 < (first.now.absDiff last.now).nanos) :
    (cache.after sender topic (first :: middle)).accepts sender topic last = true ↔
      ¬ (cache.after sender topic (first :: middle)).Late sender topic first.now last.now := by
  obtain ⟨buckets, found, phase, began⟩ := later.phase behind accepted notInserted
  have has := phase.has_gcBuckets_iff later.pastLast began late
  rw [accepts, same, checkAndInsert_eq_true, rotated_of_get? found, windowDuration_after, has, Late, found,
    windowDuration_after]
  simp

end

theorem later_of_new (window : Duration) (sender : PeerId) (topic : Topic) {before : List NonceCall}
    (clock : InTime (before ++ first :: (middle ++ [last]))) :
    ((new window).after sender topic before).Behind first.now ∧
      ((new window).after sender topic before).Later sender topic first middle last := by
  obtain ⟨inBefore, rest, fromBefore⟩ := pairwise_append.mp clock
  have behind : ((new window).after sender topic before).Behind first.now :=
    Behind.after (fun _ _ => behind_new _ _) (behind_new _ _) inBefore fun call member =>
      fromBefore call member first mem_cons_self
  exact ⟨behind, later_of_inTime rest behind⟩

theorem after_append (cache : EphemeralNonceCache) (first second : List NonceCall) :
    cache.after sender topic (first ++ second) = (cache.after sender topic first).after sender topic second :=
  foldl_append

end EphemeralNonceCache

open EphemeralNonceCache in
/-- **Retention of a nonce.** In every sequence of calls for one sender and topic whose times do not go
back, a nonce that a call accepts is refused by every later call within a window; and by one that comes
more than two windows later, if it was not inserted in between, it is accepted exactly when the buckets
are not late. -/
theorem retention_iff (window : Duration) (sender : PeerId) (topic : Topic)
    (before : List NonceCall) (first : NonceCall) (middle : List NonceCall) (last : NonceCall)
    (clock : InTime (before ++ first :: (middle ++ [last]))) (same : last.nonce = first.nonce)
    (accepted : ((new window).after sender topic before).accepts sender topic first = true) :
    let cache := (new window).after sender topic (before ++ first :: middle)
    ((first.now.absDiff last.now).nanos ≤ window.nanos → cache.accepts sender topic last = false) ∧
      (window.nanos * 2 < (first.now.absDiff last.now).nanos → NotInserted sender topic first.nonce
          ((new window).after sender topic (before ++ [first])) middle →
        (cache.accepts sender topic last = true ↔ ¬ cache.Late sender topic first.now last.now)) := by
  intro cache
  obtain ⟨behind, later⟩ := later_of_new window sender topic clock
  have isWindow : ((new window).after sender topic before).windowDuration = window :=
    windowDuration_after _
  rw [show cache = _ from after_append _ _ _]
  refine ⟨fun recent => ?_, fun late notInserted => ?_⟩
  · refine later.refused behind accepted same ?_
    rwa [isWindow]
  · rw [after_append] at notInserted
    refine later.accepts_iff behind accepted same notInserted ?_
    rwa [isWindow]

open EphemeralNonceCache in
open EphemeralNonceCache in
/-- **A nonce is refused 61 seconds after it was accepted**, with a window of 30 seconds: a call after
60 seconds moves its bucket to the previous one. -/
theorem refused_after_two_windows : let window : Duration := .fromSecs 30
    let first : NonceCall := ⟨1, ⟨100⟩⟩
    let other : NonceCall := ⟨2, ⟨160⟩⟩
    let last : NonceCall := ⟨1, ⟨161⟩⟩
    InTime [first, other, last] ∧ (new window).accepts ⟨1⟩ ⟨1⟩ first = true ∧
      NotInserted ⟨1⟩ ⟨1⟩ 1 ((new window).after ⟨1⟩ ⟨1⟩ [first]) [other] ∧
      window.nanos * 2 < (first.now.absDiff last.now).nanos ∧
      ((new window).after ⟨1⟩ ⟨1⟩ [first, other]).accepts ⟨1⟩ ⟨1⟩ last = false := by
  decide +kernel

open EphemeralNonceCache in
/-- With a call after 31 seconds it is accepted after 65. -/
theorem retention_iff_rotated : let window : Duration := .fromSecs 30
    let first : NonceCall := ⟨1, ⟨100⟩⟩
    let other : NonceCall := ⟨2, ⟨131⟩⟩
    let last : NonceCall := ⟨1, ⟨165⟩⟩
    let cache := (new window).after ⟨1⟩ ⟨1⟩ [first, other]
    NotInserted ⟨1⟩ ⟨1⟩ 1 ((new window).after ⟨1⟩ ⟨1⟩ [first]) [other] ∧
      cache.accepts ⟨1⟩ ⟨1⟩ last = true ∧
      ((first.now.absDiff last.now).nanos ≤ window.nanos → cache.accepts ⟨1⟩ ⟨1⟩ last = false) ∧
      (window.nanos * 2 < (first.now.absDiff last.now).nanos →
        NotInserted ⟨1⟩ ⟨1⟩ first.nonce ((new window).after ⟨1⟩ ⟨1⟩ ([] ++ [first])) [other] →
        (cache.accepts ⟨1⟩ ⟨1⟩ last = true ↔ ¬ cache.Late ⟨1⟩ ⟨1⟩ first.now last.now)) :=
  ⟨by decide +kernel, by decide +kernel,
    retention_iff (.fromSecs 30) ⟨1⟩ ⟨1⟩ [] ⟨1, ⟨100⟩⟩ [⟨2, ⟨131⟩⟩] ⟨1, ⟨165⟩⟩ (by decide +kernel) rfl
      (by decide +kernel)⟩

end Subduction
