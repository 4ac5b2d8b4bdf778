/-
**Nonce tracking for replay protection.**

A claim is stored in the bucket of the time at which it was made. Four buckets rotate as time
advances; before a claim is looked up, the buckets that are no longer valid are cleared.

Main result: `Tracks.tryClaim`.
-/

import Subduction.Handshake.Message

namespace Subduction

open Function

def bucketCount : Nat := 4

/-- `DEFAULT_BUCKET_DURATION`: three minutes. -/
def defaultBucketDuration : Duration := .fromSecs (3 * 60)

/-- The nonce has already been used. -/
inductive NonceReused where
  | nonceReused
deriving DecidableEq

/-- **Recently seen nonces**: the buckets, the number of the oldest valid bucket, and the length of a
bucket in seconds. -/
structure NonceCache where
  buckets : Fin bucketCount → Finset (PeerId × Nonce)
  head : Nat
  bucketDurationSecs : Nat

namespace NonceCache

/-- `NonceCache::new`. -/
def new (bucketDuration : Duration) : NonceCache := ⟨fun _ => ∅, 0, bucketDuration.asSecs⟩

/-- `NonceCache::default`. -/
def default : NonceCache := new defaultBucketDuration

section

variable (cache : NonceCache)

/-- `NonceCache::bucket_number`. -/
def bucketNumber (timestamp : TimestampSeconds) : Nat :=
  timestamp.asSecs / cache.bucketDurationSecs

/-- `NonceCache::bucket_index`. -/
def bucketIndex (bucketNum : Nat) : Fin bucketCount := ⟨bucketNum % bucketCount, Nat.mod_lt _ (by decide)⟩

/-- One round of the loop of `advance_head`: clear the oldest bucket. -/
def clearOldest : NonceCache :=
  { cache with
    buckets := Function.update cache.buckets (bucketIndex cache.head) ∅
    head := cache.head + 1 }

/-- `NonceCache::advance_head`: the loop runs while the head is before the oldest valid bucket. -/
def advanceHead (currentBucket : Nat) : NonceCache :=
  let oldestValid := currentBucket - (bucketCount - 1)
  clearOldest^[oldestValid - cache.head] cache

/-- Insert a pair into the bucket of a number. -/
def record (bucketNum : Nat) (key : PeerId × Nonce) : NonceCache :=
  { cache with
    buckets := Function.update cache.buckets (bucketIndex bucketNum)
      (insert key (cache.buckets (bucketIndex bucketNum))) }

/-- `NonceCache::try_claim`. -/
def tryClaim (peer : PeerId) (nonce : Nonce) (timestamp : TimestampSeconds) :
    NonceCache × Except NonceReused Unit :=
  let key := (peer, nonce)
  let bucketNum := cache.bucketNumber timestamp
  let inner := cache.advanceHead bucketNum
  if ∃ index, key ∈ inner.buckets index then (inner, .error .nonceReused)
  else (inner.record bucketNum key, .ok ())

/-! ### What the cache holds -/

/-- A claim that was accepted: the pair, and the number of the bucket. -/
abbrev Claim := (PeerId × Nonce) × Nat

/-- **The cache holds the claims that are not older than its head**, each in the bucket of its
number. -/
def Holds (claims : Claim → Prop) : Prop :=
  ∀ index key, key ∈ cache.buckets index ↔
    ∃ number, claims (key, number) ∧ bucketIndex number = index ∧ cache.head ≤ number

/-- **The cache tracks the accepted claims**, the last of them made at bucket number `last` at the
latest. -/
structure Tracks (claims : Claim → Prop) (last : Nat) : Prop where
  holds : cache.Holds claims
  head : cache.head = last - (bucketCount - 1)
  bounded : ∀ claim, claims claim → claim.2 ≤ last

end

variable {cache : NonceCache} {claims : Claim → Prop} {last : Nat}

theorem tracks_new (bucketDuration : Duration) : (new bucketDuration).Tracks (fun _ => False) 0 := by
  refine ⟨fun index key => ?_, rfl, fun claim impossible => impossible.elim⟩
  simp [new]

theorem bucketIndex_eq_iff {first second : Nat} :
    bucketIndex first = bucketIndex second ↔ first % 4 = second % 4 := by
  unfold bucketIndex bucketCount
  exact Fin.mk.injEq _ _ _ _ ▸ Iff.rfl

theorem Holds.clearOldest (holds : cache.Holds claims)
    (near : ∀ claim, claims claim → claim.2 ≤ cache.head + 3) : cache.clearOldest.Holds claims := by
  intro index key
  show key ∈ Function.update cache.buckets (bucketIndex cache.head) ∅ index ↔
    ∃ number, claims (key, number) ∧ bucketIndex number = index ∧ cache.head + 1 ≤ number
  by_cases same : index = bucketIndex cache.head
  · subst same
    rw [update_self]
    refine ⟨fun impossible => absurd impossible (Finset.notMem_empty key),
      fun ⟨number, isClaim, place, new⟩ => ?_⟩
    have close : number ≤ cache.head + 3 := near (key, number) isClaim
    have place := bucketIndex_eq_iff.mp place
    omega
  · rw [update_of_ne same, holds index key]
    refine exists_congr fun number => and_congr_right fun _ => and_congr_right fun place => ?_
    refine ⟨fun old => Nat.lt_of_le_of_ne old fun atHead => same ?_, fun new => Nat.le_of_succ_le new⟩
    rw [← place, atHead]

theorem Holds.iterate (steps : Nat) (holds : cache.Holds claims)
    (near : ∀ claim, claims claim → claim.2 ≤ cache.head + 3) :
    (NonceCache.clearOldest^[steps] cache).Holds claims ∧
      (NonceCache.clearOldest^[steps] cache).head = cache.head + steps ∧
      (NonceCache.clearOldest^[steps] cache).bucketDurationSecs = cache.bucketDurationSecs := by
  induction steps generalizing cache with
  | zero => exact ⟨holds, rfl, rfl⟩
  | succ steps ih =>
    rw [iterate_succ_apply]
    have next := ih (holds.clearOldest near) fun claim isClaim =>
      (near claim isClaim).trans (by simp [NonceCache.clearOldest])
    refine ⟨next.1, ?_, next.2.2⟩
    rw [next.2.1]
    simp only [NonceCache.clearOldest]
    omega

variable (tracks : cache.Tracks claims last)

include tracks

/-- **Advancing** forgets the claims that are more than three bucket numbers old. -/
theorem Tracks.advanceHead {current : Nat} (later : last ≤ current) :
    (cache.advanceHead current).Tracks claims current ∧
      (cache.advanceHead current).bucketDurationSecs = cache.bucketDurationSecs := by
  have head := tracks.head
  unfold bucketCount at head
  have near : ∀ claim, claims claim → claim.2 ≤ cache.head + 3 := by
    intro claim isClaim
    have bound := tracks.bounded claim isClaim
    omega
  obtain ⟨holds, moved, duration⟩ := tracks.holds.iterate
    (current - (bucketCount - 1) - cache.head) near
  refine ⟨⟨holds, ?_, fun claim isClaim => (tracks.bounded claim isClaim).trans later⟩, duration⟩
  unfold NonceCache.advanceHead
  rw [moved]
  unfold bucketCount
  omega

theorem Tracks.record (key : PeerId × Nonce) :
    (cache.record last key).Tracks (fun claim => claims claim ∨ claim = (key, last)) last := by
  have head := tracks.head
  refine ⟨fun index other => ?_, head, fun claim either => ?_⟩
  · have old := tracks.holds index other
    show other ∈ Function.update cache.buckets (bucketIndex last)
      (insert key (cache.buckets (bucketIndex last))) index ↔ _
    by_cases same : index = bucketIndex last
    · subst same
      rw [update_self, Finset.mem_insert, old]
      refine ⟨fun either => ?_, fun ⟨number, isClaim, place, recent⟩ => ?_⟩
      · rcases either with rfl | ⟨number, isClaim, rest⟩
        · refine ⟨last, Or.inr rfl, rfl, ?_⟩
          show cache.head ≤ last
          omega
        · exact ⟨number, Or.inl isClaim, rest⟩
      · rcases isClaim with isClaim | isNew
        · exact Or.inr ⟨number, isClaim, place, recent⟩
        · exact Or.inl (Prod.mk.inj isNew).1
    · rw [update_of_ne same, old]
      refine exists_congr fun number => and_congr_left fun ⟨place, _⟩ => ?_
      refine ⟨Or.inl, fun either => either.resolve_right fun isNew => same ?_⟩
      rw [← place, (Prod.mk.inj isNew).2]
  · rcases either with isClaim | rfl
    · exact tracks.bounded claim isClaim
    · exact le_rfl

/-- Whether the pair was claimed fewer than four bucket numbers ago. -/
def Recent (claims : Claim → Prop) (key : PeerId × Nonce) (current : Nat) : Prop :=
  ∃ number, claims (key, number) ∧ current < number + 4

theorem Tracks.mem_iff_recent (key : PeerId × Nonce) :
    (∃ index, key ∈ cache.buckets index) ↔ Recent claims key last := by
  have head := tracks.head
  unfold bucketCount at head
  refine ⟨fun ⟨index, stored⟩ => ?_, fun ⟨number, isClaim, recent⟩ => ⟨bucketIndex number, ?_⟩⟩
  · obtain ⟨number, isClaim, -, recent⟩ := (tracks.holds index key).mp stored
    exact ⟨number, isClaim, by omega⟩
  · exact (tracks.holds _ _).mpr ⟨number, isClaim, rfl, by omega⟩

theorem Tracks.tryClaim (peer : PeerId) (nonce : Nonce)
    {timestamp : TimestampSeconds} (later : last ≤ cache.bucketNumber timestamp) :
    let current := cache.bucketNumber timestamp
    let result := cache.tryClaim peer nonce timestamp
    (result.2 = .ok () ↔ ¬ Recent claims (peer, nonce) current) ∧
      result.1.Tracks (fun claim => claims claim ∨ result.2 = .ok () ∧ claim = ((peer, nonce), current))
        current ∧
      result.1.bucketDurationSecs = cache.bucketDurationSecs := by
  obtain ⟨advanced, duration⟩ := tracks.advanceHead later
  have refused := advanced.mem_iff_recent (peer, nonce)
  unfold NonceCache.tryClaim
  by_cases found : ∃ index,
      (peer, nonce) ∈ (cache.advanceHead (cache.bucketNumber timestamp)).buckets index
  · simp only [if_pos found]
    refine ⟨⟨fun impossible => ?_, fun absent => absurd (refused.mp found) absent⟩, ?_, duration⟩
    · exact nomatch impossible
    · simpa using advanced
  · simp only [if_neg found]
    refine ⟨⟨fun _ recent => found (refused.mpr recent), fun _ => trivial⟩, ?_, duration⟩
    simpa using advanced.record (peer, nonce)

end NonceCache

end Subduction
