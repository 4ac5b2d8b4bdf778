/-
**The nonce cache of ephemeral messages.**

For every pair of sender and topic two buckets hold the nonces that were seen. A write rotates them: a
current bucket older than the window becomes the previous one, and one older than twice the window is
dropped with it. A read never rotates.

* **`Keeps.checkAndInsert`** — for the length of the window after the insertion no write to the cache
  drops it; **`checkAndInsert_of_keeps`** — and it is refused.
-/

import Subduction.Ephemeral.Message

namespace Subduction

open TimestampSeconds

/-! ### The code -/

/-- `Duration::MAX`. -/
def Duration.max : Duration := ⟨(2 ^ 64 - 1) * 1000000000 + 999999999⟩

/-- `Duration::saturating_mul`. -/
def Duration.saturatingMul (duration : Duration) (factor : Nat) : Duration :=
  ⟨min (duration.nanos * factor) Duration.max.nanos⟩

/-- A set of nonces, and when it became the current one. -/
structure NonceBucket where
  nonces : Finset UInt64
  rotatedAt : TimestampSeconds
deriving DecidableEq

/-- `NonceBucket::new`. -/
def NonceBucket.new (now : TimestampSeconds) : NonceBucket := ⟨∅, now⟩

structure NonceBuckets where
  current : NonceBucket
  previous : NonceBucket
deriving DecidableEq

def NonceBuckets.Has (buckets : NonceBuckets) (nonce : UInt64) : Prop :=
  nonce ∈ buckets.current.nonces ∨ nonce ∈ buckets.previous.nonces

instance (buckets : NonceBuckets) (nonce : UInt64) : Decidable (buckets.Has nonce) :=
  inferInstanceAs (Decidable (_ ∨ _))

def NonceBuckets.insert (buckets : NonceBuckets) (nonce : UInt64) : NonceBuckets :=
  { buckets with current := ⟨Insert.insert nonce buckets.current.nonces, buckets.current.rotatedAt⟩ }

/-- `gc_buckets`. -/
@[irreducible] def gcBuckets (buckets : NonceBuckets) (now : TimestampSeconds) (windowDuration : Duration) :
    NonceBuckets :=
  let age := buckets.current.rotatedAt.absDiff now
  if (windowDuration.saturatingMul 2).nanos < age.nanos then ⟨.new now, .new now⟩
  else if windowDuration.nanos < age.nanos then ⟨.new now, buckets.current⟩
  else buckets

/-- **The time-bucketed cache of nonces.** -/
structure EphemeralNonceCache where
  windows : FinMap (PeerId × Topic) NonceBuckets
  windowDuration : Duration

namespace EphemeralNonceCache

/-- `EphemeralNonceCache::new`. -/
def new (windowDuration : Duration) : EphemeralNonceCache := ⟨∅, windowDuration⟩

section

variable (cache : EphemeralNonceCache) (sender : PeerId)

/-- `EphemeralNonceCache::contains`. -/
def contains (topic : Topic) (nonce : UInt64) : Bool :=
  match cache.windows.get? (sender, topic) with
  | none => false
  | some buckets => decide (buckets.Has nonce)

/-- The buckets of the pair as a write finds them, rotated. -/
def rotated (topic : Topic) (now : TimestampSeconds) : NonceBuckets :=
  gcBuckets ((cache.windows.get? (sender, topic)).getD ⟨.new now, .new now⟩) now cache.windowDuration

/-- The buckets after a write: those that have the nonce stay, else it is inserted. -/
def written (topic : Topic) (nonce : UInt64) (now : TimestampSeconds) : NonceBuckets :=
  if (cache.rotated sender topic now).Has nonce then cache.rotated sender topic now
  else (cache.rotated sender topic now).insert nonce

/-- `EphemeralNonceCache::check_and_insert`: whether the nonce was new. -/
def checkAndInsert (topic : Topic) (nonce : UInt64)
    (now : TimestampSeconds) : EphemeralNonceCache × Bool :=
  ({ cache with windows := cache.windows.insert (sender, topic) (cache.written sender topic nonce now) },
    decide (¬ (cache.rotated sender topic now).Has nonce))

end

/-- `EphemeralNonceCache::remove_peer`. -/
def removePeer (cache : EphemeralNonceCache) (peer : PeerId) : EphemeralNonceCache :=
  { cache with windows := cache.windows.retain fun key _ => decide (key.1 ≠ peer) }

end EphemeralNonceCache

/-! ### Time -/

theorem TimestampSeconds.nanos_absDiff {first second : TimestampSeconds}
    (before : first.asSecs ≤ second.asSecs) :
    (first.absDiff second).nanos = (second.asSecs - first.asSecs) * 1000000000 := by
  rw [absDiff, max_eq_right before, min_eq_left before]
  rfl

theorem TimestampSeconds.nanos_absDiff_mono {first second third : TimestampSeconds}
    (before : first.asSecs ≤ second.asSecs) (after : second.asSecs ≤ third.asSecs) :
    (first.absDiff second).nanos ≤ (first.absDiff third).nanos := by
  rw [nanos_absDiff before, nanos_absDiff (before.trans after)]
  exact Nat.mul_le_mul_right _ (Nat.sub_le_sub_right after _)

theorem lt_absDiff_of_saturatingMul {window : Duration} {factor : Nat} {first second : TimestampSeconds} :
    (window.saturatingMul factor).nanos < (first.absDiff second).nanos ↔
      window.nanos * factor < (first.absDiff second).nanos := by
  have bound : (first.absDiff second).nanos ≤ Duration.max.nanos := by
    have firstLt := first.asSecs_lt
    have secondLt := second.asSecs_lt
    have most : max first.asSecs second.asSecs - min first.asSecs second.asSecs ≤ 2 ^ 64 - 1 := by omega
    exact (Nat.mul_le_mul_right 1000000000 most).trans (Nat.le_add_right _ _)
  rw [Duration.saturatingMul, min_lt_iff, or_iff_left (Nat.not_lt.mpr bound)]

theorem gcBuckets_eq (buckets : NonceBuckets) (now : TimestampSeconds) (window : Duration) :
    gcBuckets buckets now window =
      if window.nanos * 2 < (buckets.current.rotatedAt.absDiff now).nanos then ⟨.new now, .new now⟩
      else if window.nanos < (buckets.current.rotatedAt.absDiff now).nanos then
        ⟨.new now, buckets.current⟩
      else buckets := by
  unfold gcBuckets
  simp only [lt_absDiff_of_saturatingMul]

/-! ### What the buckets keep -/

namespace NonceBuckets

variable {buckets : NonceBuckets} {nonce : UInt64} {time now : TimestampSeconds} {window : Duration}

/-- **The buckets keep the nonce that was inserted at the time**: in the current bucket, which began at
most a window before, or in the previous one, which ended after. -/
def Keeps (window : Duration) (buckets : NonceBuckets) (nonce : UInt64) (time : TimestampSeconds) : Prop :=
  (nonce ∈ buckets.current.nonces ∧ buckets.current.rotatedAt.asSecs ≤ time.asSecs ∧
    (buckets.current.rotatedAt.absDiff time).nanos ≤ window.nanos) ∨
  (nonce ∈ buckets.previous.nonces ∧ time.asSecs < buckets.current.rotatedAt.asSecs)

@[simp] theorem rotatedAt_insert :
    (buckets.insert nonce).current.rotatedAt = buckets.current.rotatedAt := rfl

theorem Keeps.has (keeps : buckets.Keeps window nonce time) : buckets.Has nonce :=
  keeps.imp And.left And.left

theorem Keeps.insert (keeps : buckets.Keeps window nonce time) (other : UInt64) :
    (buckets.insert other).Keeps window nonce time :=
  keeps.imp (fun inCurrent => ⟨Finset.mem_insert_of_mem inCurrent.1, inCurrent.2⟩) id

theorem Keeps.gcBuckets (keeps : buckets.Keeps window nonce time) (past : time.asSecs ≤ now.asSecs)
    (began : buckets.current.rotatedAt.asSecs ≤ now.asSecs)
    (recent : (time.absDiff now).nanos ≤ window.nanos) :
    (gcBuckets buckets now window).Keeps window nonce time := by
  have age := nanos_absDiff began
  rw [nanos_absDiff past] at recent
  rw [gcBuckets_eq, age]
  rcases keeps with ⟨inCurrent, before, within⟩ | ⟨inPrevious, after⟩
  · rw [nanos_absDiff before] at within
    split
    · exfalso
      omega
    · split
      · refine .inr ⟨inCurrent, ?_⟩
        show time.asSecs < now.asSecs
        omega
      · exact .inl ⟨inCurrent, before, by rwa [nanos_absDiff before]⟩
  · rw [if_neg (by omega), if_neg (by omega)]
    exact .inr ⟨inPrevious, after⟩

theorem rotatedAt_gcBuckets (began : buckets.current.rotatedAt.asSecs ≤ now.asSecs) :
    (Subduction.gcBuckets buckets now window).current.rotatedAt.asSecs ≤ now.asSecs ∧
      ((Subduction.gcBuckets buckets now window).current.rotatedAt.absDiff now).nanos ≤ window.nanos := by
  have fresh : (now.absDiff now).nanos ≤ window.nanos := by
    rw [nanos_absDiff (le_refl _), Nat.sub_self, Nat.zero_mul]
    exact Nat.zero_le _
  have ofFresh : ∀ previous, let rotated : NonceBuckets := ⟨.new now, previous⟩
      rotated.current.rotatedAt.asSecs ≤ now.asSecs ∧
        (rotated.current.rotatedAt.absDiff now).nanos ≤ window.nanos :=
    fun _ => ⟨le_refl now.asSecs, fresh⟩
  rw [gcBuckets_eq]
  split
  · exact ofFresh _
  · split
    · exact ofFresh _
    · rename_i notOlder
      exact ⟨began, Nat.not_lt.mp notOlder⟩

end NonceBuckets

/-! ### What the cache keeps -/

namespace EphemeralNonceCache

variable {cache : EphemeralNonceCache} {sender other : PeerId} {topic otherTopic : Topic}
  {nonce otherNonce : UInt64} {time now : TimestampSeconds}

/-- The cache keeps the nonce that was inserted at the time. -/
def Keeps (cache : EphemeralNonceCache) (sender : PeerId) (topic : Topic) (nonce : UInt64)
    (time : TimestampSeconds) : Prop :=
  ∃ buckets, cache.windows.get? (sender, topic) = some buckets ∧
    buckets.Keeps cache.windowDuration nonce time

/-- All buckets began before. -/
def Behind (cache : EphemeralNonceCache) (now : TimestampSeconds) : Prop :=
  ∀ key buckets, cache.windows.get? key = some buckets →
    buckets.current.rotatedAt.asSecs ≤ now.asSecs

theorem behind_new (window : Duration) (now : TimestampSeconds) : (new window).Behind now :=
  fun _ _ found => nomatch found

theorem Behind.mono {later : TimestampSeconds} (behind : cache.Behind now)
    (after : now.asSecs ≤ later.asSecs) : cache.Behind later :=
  fun key buckets found => (behind key buckets found).trans after

theorem written_of_has (has : (cache.rotated sender topic now).Has nonce) :
    cache.written sender topic nonce now = cache.rotated sender topic now :=
  if_pos has

theorem written_of_new (isNew : ¬ (cache.rotated sender topic now).Has nonce) :
    cache.written sender topic nonce now = (cache.rotated sender topic now).insert nonce :=
  if_neg isNew

/-- **A write**: the buckets of the pair are rotated, and the nonce is put in when it is new. -/
theorem written_cases (cache : EphemeralNonceCache) (sender : PeerId) (topic : Topic) (nonce : UInt64)
    (now : TimestampSeconds) :
    cache.written sender topic nonce now = cache.rotated sender topic now ∨
      cache.written sender topic nonce now = (cache.rotated sender topic now).insert nonce := by
  by_cases has : (cache.rotated sender topic now).Has nonce
  · exact .inl (written_of_has has)
  · exact .inr (written_of_new has)

theorem checkAndInsert_eq_true : (cache.checkAndInsert sender topic nonce now).2 = true ↔
      ¬ (cache.rotated sender topic now).Has nonce :=
  decide_eq_true_iff

@[simp] theorem windowDuration_checkAndInsert :
    (cache.checkAndInsert sender topic nonce now).1.windowDuration = cache.windowDuration := rfl

@[simp] theorem windowDuration_removePeer :
    (cache.removePeer sender).windowDuration = cache.windowDuration := rfl

section

variable (behind : cache.Behind now)

include behind

theorem Behind.getD (key : PeerId × Topic) :
    ((cache.windows.get? key).getD ⟨.new now, .new now⟩).current.rotatedAt.asSecs ≤ now.asSecs := by
  cases found : cache.windows.get? key with
  | none => exact le_refl now.asSecs
  | some buckets => exact behind key buckets found

theorem Behind.rotated (sender : PeerId) (topic : Topic) :
    (cache.rotated sender topic now).current.rotatedAt.asSecs ≤ now.asSecs ∧
      ((cache.rotated sender topic now).current.rotatedAt.absDiff now).nanos
        ≤ cache.windowDuration.nanos :=
  NonceBuckets.rotatedAt_gcBuckets (behind.getD (sender, topic))

theorem Behind.written :
    (cache.written sender topic nonce now).current.rotatedAt.asSecs ≤ now.asSecs := by
  have began := (behind.rotated sender topic).1
  rcases cache.written_cases sender topic nonce now with same | inserted
  · rwa [same]
  · rwa [inserted, NonceBuckets.rotatedAt_insert]

theorem Behind.checkAndInsert : (cache.checkAndInsert sender topic nonce now).1.Behind now := by
  intro key buckets found
  change (cache.windows.insert _ _).get? key = some buckets at found
  rcases FinMap.of_get?_insert found with ⟨-, rfl⟩ | ⟨-, older⟩
  · exact behind.written
  · exact behind key buckets older

theorem Behind.removePeer (peer : PeerId) : (cache.removePeer peer).Behind now :=
  fun key buckets found => behind key buckets (FinMap.get?_retain_eq_some.mp found).1

end

theorem Keeps.removePeer (keeps : cache.Keeps sender topic nonce time) (different : other ≠ sender) :
    (cache.removePeer other).Keeps sender topic nonce time := by
  obtain ⟨buckets, found, inBuckets⟩ := keeps
  exact ⟨buckets, FinMap.get?_retain_eq_some.mpr ⟨found, decide_eq_true different.symm⟩, inBuckets⟩

section

variable (keeps : cache.Keeps sender topic nonce time) (behind : cache.Behind now)

include keeps behind

variable (past : time.asSecs ≤ now.asSecs)

include past

variable (recent : (time.absDiff now).nanos ≤ cache.windowDuration.nanos)

include recent

theorem Keeps.rotated : (cache.rotated sender topic now).Keeps cache.windowDuration nonce time := by
  obtain ⟨buckets, found, inBuckets⟩ := keeps
  rw [EphemeralNonceCache.rotated, found]
  exact inBuckets.gcBuckets past (behind _ _ found) recent

theorem Keeps.written :
    (cache.written sender topic otherNonce now).Keeps cache.windowDuration nonce time := by
  have inRotated := keeps.rotated behind past recent
  rcases cache.written_cases sender topic otherNonce now with same | inserted
  · rwa [same]
  · rw [inserted]
    exact inRotated.insert otherNonce

theorem Keeps.checkAndInsert :
    (cache.checkAndInsert other otherTopic otherNonce now).1.Keeps sender topic nonce time := by
  by_cases same : (sender, topic) = (other, otherTopic)
  · obtain ⟨rfl, rfl⟩ := Prod.mk.inj same
    exact ⟨_, FinMap.get?_insert_self _ _ _, keeps.written behind past recent⟩
  · obtain ⟨buckets, found, inBuckets⟩ := keeps
    exact ⟨buckets, (FinMap.get?_insert_of_ne _ _ same).trans found, inBuckets⟩

theorem checkAndInsert_of_keeps : (cache.checkAndInsert sender topic nonce now).2 ≠ true :=
  fun accepted => checkAndInsert_eq_true.mp accepted (keeps.rotated behind past recent).has

end

theorem keeps_of_accepted (accepted : (cache.checkAndInsert sender topic nonce now).2 = true)
    (behind : cache.Behind now) :
    (cache.checkAndInsert sender topic nonce now).1.Keeps sender topic nonce now := by
  refine ⟨(cache.rotated sender topic now).insert nonce, ?_, .inl ⟨Finset.mem_insert_self nonce _, ?_⟩⟩
  · refine (FinMap.get?_insert_self _ _ _).trans (congrArg some ?_)
    exact if_neg (checkAndInsert_eq_true.mp accepted)
  · rw [NonceBuckets.rotatedAt_insert]
    exact behind.rotated sender topic

end EphemeralNonceCache

end Subduction
