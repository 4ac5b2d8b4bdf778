/-
**How long a claimed nonce is refused.**

The buckets rotate only when a claim is tried, and one call may clear any number of them. Still a pair is
refused for exactly as long as the bucket of its latest accepted claim is one of the last four, whatever
was tried in between and however long nothing was tried at all.

Main results: `ClaimRun.Faithful.step`, `refused_iff_latest`.
-/

import Subduction.Handshake.NonceCache

namespace Subduction

open List

structure ClaimAttempt where
  peer : PeerId
  nonce : Nonce
  time : TimestampSeconds
deriving DecidableEq

def ClaimAttempt.key (attempt : ClaimAttempt) : PeerId × Nonce := (attempt.peer, attempt.nonce)

/-- **A cache and the claims it accepted**, the latest one last. -/
structure ClaimRun where
  cache : NonceCache
  accepted : List ClaimAttempt

def ClaimRun.step (run : ClaimRun) (attempt : ClaimAttempt) : ClaimRun :=
  match run.cache.tryClaim attempt.peer attempt.nonce attempt.time with
  | (cache, .ok _) => ⟨cache, run.accepted ++ [attempt]⟩
  | (cache, .error _) => ⟨cache, run.accepted⟩

def ClaimRun.new (bucketDuration : Duration) : ClaimRun := ⟨.new bucketDuration, []⟩

/-- **The time of the latest accepted claim** of a pair. -/
def latestClaim (accepted : List ClaimAttempt) (key : PeerId × Nonce) : Option TimestampSeconds :=
  (accepted.filter fun attempt => attempt.key = key).getLast?.map ClaimAttempt.time

/-! ### The accepted claims -/

/-- The claims that a list of accepted attempts stands for. -/
def claimsOf (duration : Nat) (accepted : List ClaimAttempt) : NonceCache.Claim → Prop := fun claim =>
  ∃ attempt ∈ accepted, claim = (attempt.key, attempt.time.asSecs / duration)

/-- **The cache tracks what it accepted**, up to a time. -/
structure ClaimRun.Faithful (duration : Nat) (run : ClaimRun) (last : Nat) : Prop where
  length : run.cache.bucketDurationSecs = duration
  tracks : run.cache.Tracks (claimsOf duration run.accepted) (last / duration)
  ordered : run.accepted.Pairwise fun first second => first.time.asSecs ≤ second.time.asSecs
  bounded : ∀ attempt ∈ run.accepted, attempt.time.asSecs ≤ last

theorem ClaimRun.faithful_new (duration : Nat) : (ClaimRun.new (.fromSecs duration)).Faithful duration 0 where
  length := Nat.mul_div_cancel duration (by decide)
  tracks := by
    have fresh := NonceCache.tracks_new (.fromSecs duration)
    have none : claimsOf duration [] = fun _ => False := by
      funext claim
      simp [claimsOf]
    rw [Nat.zero_div]
    exact none ▸ fresh
  ordered := .nil
  bounded := fun _ member => absurd member not_mem_nil

theorem claimsOf_append (duration : Nat) (accepted : List ClaimAttempt) (attempt : ClaimAttempt) :
    claimsOf duration (accepted ++ [attempt]) = fun claim =>
      claimsOf duration accepted claim ∨ claim = (attempt.key, attempt.time.asSecs / duration) := by
  funext claim
  simp only [claimsOf, mem_append, mem_singleton, or_and_right, exists_or, exists_eq_left]

variable {duration last : Nat} {run : ClaimRun}

theorem ClaimRun.Faithful.step (faithful : run.Faithful duration last) {attempt : ClaimAttempt}
    (later : last ≤ attempt.time.asSecs) : (run.step attempt).Faithful duration attempt.time.asSecs := by
  have number : run.cache.bucketNumber attempt.time = attempt.time.asSecs / duration := by
    rw [NonceCache.bucketNumber, faithful.length]
  have inTime : last / duration ≤ run.cache.bucketNumber attempt.time := by
    rw [number]
    exact Nat.div_le_div_right later
  obtain ⟨-, tracks, length⟩ := faithful.tracks.tryClaim attempt.peer attempt.nonce inTime
  have bounded : ∀ other ∈ run.accepted, other.time.asSecs ≤ attempt.time.asSecs :=
    fun other member => (faithful.bounded other member).trans later
  rw [number] at tracks
  rw [faithful.length] at length
  unfold ClaimRun.step
  split
  · rename_i cache result
    rw [result] at tracks length
    refine ⟨length, ?_, ?_, ?_⟩
    · rw [claimsOf_append]
      simp only [true_and] at tracks
      exact tracks
    · refine pairwise_append.mpr ⟨faithful.ordered, pairwise_singleton _ _, ?_⟩
      intro other member own isOwn
      rw [mem_singleton.mp isOwn]
      exact bounded other member
    · intro other member
      rcases mem_append.mp member with old | new
      · exact bounded other old
      · rw [mem_singleton.mp new]
  · rename_i cache result
    rw [result] at tracks length
    refine ⟨length, ?_, faithful.ordered, bounded⟩
    simpa only [reduceCtorEq, false_and, or_false] using tracks

theorem ClaimRun.Faithful.foldl (faithful : run.Faithful duration last) {attempts : List ClaimAttempt}
    (ordered : attempts.Pairwise fun first second => first.time.asSecs ≤ second.time.asSecs)
    {limit : Nat} (since : last ≤ limit)
    (within : ∀ attempt ∈ attempts, last ≤ attempt.time.asSecs ∧ attempt.time.asSecs ≤ limit) :
    ∃ latest ≤ limit, (attempts.foldl ClaimRun.step run).Faithful duration latest := by
  induction attempts generalizing run last with
  | nil => exact ⟨last, since, faithful⟩
  | cons attempt attempts ih =>
    obtain ⟨after, bound⟩ := within attempt mem_cons_self
    refine ih (faithful.step after) (pairwise_cons.mp ordered).2 bound fun other member => ?_
    exact ⟨(pairwise_cons.mp ordered).1 other member, (within other (mem_cons_of_mem _ member)).2⟩

/-! ### The latest claim -/

theorem latestClaim_eq_some {accepted : List ClaimAttempt} {key : PeerId × Nonce} {time : TimestampSeconds}
    (ordered : accepted.Pairwise fun first second => first.time.asSecs ≤ second.time.asSecs)
    (latest : latestClaim accepted key = some time) :
    (∃ attempt ∈ accepted, attempt.key = key ∧ attempt.time = time) ∧
      ∀ attempt ∈ accepted, attempt.key = key → attempt.time.asSecs ≤ time.asSecs := by
  obtain ⟨attempt, isLast, rfl⟩ := Option.map_eq_some_iff.mp latest
  obtain ⟨front, split⟩ := List.getLast?_eq_some_iff.mp isLast
  have inside : ∀ other, other ∈ front ++ [attempt] ↔ other ∈ accepted ∧ other.key = key := by
    intro other
    rw [← split, mem_filter, decide_eq_true_eq]
  have filtered := ordered.filter fun attempt => decide (attempt.key = key)
  rw [split] at filtered
  obtain ⟨member, isKey⟩ := (inside attempt).mp (mem_append_right _ (mem_singleton_self _))
  refine ⟨⟨attempt, member, isKey, rfl⟩, fun other known sameKey => ?_⟩
  rcases mem_append.mp ((inside other).mpr ⟨known, sameKey⟩) with earlier | own
  · exact (pairwise_append.mp filtered).2.2 other earlier attempt (mem_singleton_self _)
  · rw [mem_singleton.mp own]

theorem latestClaim_eq_none {accepted : List ClaimAttempt} {key : PeerId × Nonce}
    (never : latestClaim accepted key = none) : ∀ attempt ∈ accepted, attempt.key ≠ key := by
  intro attempt member isKey
  have empty := List.getLast?_eq_none_iff.mp (Option.map_eq_none_iff.mp never)
  have inside : attempt ∈ accepted.filter fun attempt => decide (attempt.key = key) :=
    mem_filter.mpr ⟨member, decide_eq_true isKey⟩
  rw [empty] at inside
  exact absurd inside not_mem_nil

theorem recent_iff_latest {accepted : List ClaimAttempt} (positive : 0 < duration)
    (ordered : accepted.Pairwise fun first second => first.time.asSecs ≤ second.time.asSecs)
    (key : PeerId × Nonce) (now : Nat) :
    NonceCache.Recent (claimsOf duration accepted) key (now / duration) ↔
      ∃ time, latestClaim accepted key = some time ∧ now < (time.asSecs / duration + 4) * duration := by
  constructor
  · rintro ⟨number, ⟨attempt, member, isClaim⟩, recent⟩
    obtain ⟨rfl, rfl⟩ := Prod.mk.inj isClaim
    cases latest : latestClaim accepted attempt.key with
    | none => exact absurd rfl (latestClaim_eq_none latest attempt member)
    | some time =>
      have bound := (latestClaim_eq_some ordered latest).2 attempt member rfl
      refine ⟨time, rfl, (Nat.div_lt_iff_lt_mul positive).mp (recent.trans_le ?_)⟩
      exact Nat.add_le_add_right (Nat.div_le_div_right bound) 4
  · rintro ⟨time, latest, within⟩
    obtain ⟨attempt, member, rfl, rfl⟩ := (latestClaim_eq_some ordered latest).1
    exact ⟨_, ⟨attempt, member, rfl⟩, (Nat.div_lt_iff_lt_mul positive).mpr within⟩

/-- **The time for which a nonce is refused.** Whatever was tried before, at times that do not decrease,
a pair is refused exactly until the end of the third bucket after that of its latest accepted claim, and
accepted otherwise. -/
theorem refused_iff_latest {bucketSecs : Nat} (positive : 1 ≤ bucketSecs) (attempts : List ClaimAttempt)
    (attempt : ClaimAttempt)
    (ordered : (attempts ++ [attempt]).Pairwise fun first second => first.time.asSecs ≤ second.time.asSecs) :
    let run := attempts.foldl ClaimRun.step (.new (.fromSecs bucketSecs))
    let result := (run.cache.tryClaim attempt.peer attempt.nonce attempt.time).2
    (result = .error .nonceReused ↔ ∃ time, latestClaim run.accepted attempt.key = some time ∧
        attempt.time.asSecs < (time.asSecs / bucketSecs + 4) * bucketSecs) ∧
      (result = .ok () ↔ ∀ time, latestClaim run.accepted attempt.key = some time →
        (time.asSecs / bucketSecs + 4) * bucketSecs ≤ attempt.time.asSecs) := by
  intro run result
  obtain ⟨before, -, past⟩ := List.pairwise_append.mp ordered
  obtain ⟨last, inTime, faithful⟩ := (ClaimRun.faithful_new bucketSecs).foldl before (Nat.zero_le _)
    fun other member => ⟨Nat.zero_le _, past other member attempt (List.mem_singleton_self _)⟩
  have number : run.cache.bucketNumber attempt.time = attempt.time.asSecs / bucketSecs := by
    rw [NonceCache.bucketNumber, faithful.length]
  have accepted := (faithful.tracks.tryClaim attempt.peer attempt.nonce
    (number ▸ Nat.div_le_div_right inTime)).1
  rw [number] at accepted
  have recent := recent_iff_latest positive faithful.ordered attempt.key attempt.time.asSecs
  have fresh : result = .ok () ↔ ¬ ∃ time, latestClaim run.accepted attempt.key = some time ∧
      attempt.time.asSecs < (time.asSecs / bucketSecs + 4) * bucketSecs :=
    accepted.trans (not_congr recent)
  refine ⟨?_, fresh.trans ?_⟩
  · rw [← not_iff_not, ← fresh]
    cases result with
    | ok value => simp
    | error reused => cases reused; simp
  · simp only [not_exists, not_and, not_lt]

def repeatedClaim (secs : UInt64) : ClaimAttempt := ⟨⟨1⟩, ⟨7⟩, ⟨secs⟩⟩

theorem refused_until_fourth_bucket :
    let run := [repeatedClaim 100, repeatedClaim 500].foldl ClaimRun.step (.new (.fromSecs 180))
    latestClaim run.accepted (repeatedClaim 0).key = some ⟨100⟩ ∧
      (run.cache.tryClaim ⟨1⟩ ⟨7⟩ ⟨719⟩).2 = .error .nonceReused ∧
      (run.cache.tryClaim ⟨1⟩ ⟨7⟩ ⟨720⟩).2 = .ok () := by
  intro run
  have latest : latestClaim run.accepted (repeatedClaim 0).key = some ⟨100⟩ := by decide +kernel
  have early := refused_iff_latest (by decide : 1 ≤ 180) [repeatedClaim 100, repeatedClaim 500]
    (repeatedClaim 719) (by decide)
  have late := refused_iff_latest (by decide : 1 ≤ 180) [repeatedClaim 100, repeatedClaim 500]
    (repeatedClaim 720) (by decide)
  refine ⟨latest, early.1.mpr ⟨⟨100⟩, latest, by decide⟩, late.2.mpr fun time isLatest => ?_⟩
  obtain rfl := Option.some.inj (latest.symm.trans isLatest)
  decide

end Subduction
