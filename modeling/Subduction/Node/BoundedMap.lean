/-
**The bound on the resident trees.**

The map of resident trees is cut into shards, each behind its own lock and with its share of the capacity. A
new key evicts the entry with the smallest tick from a full shard. A call draws its tick before it waits for
the lock, so ticks may come to a shard in any order.

Main results: `shard_bounded`, `recently_used_stays`.
-/

import Mathlib.Data.List.MinMax
import Subduction.Lib.FinMap

set_option linter.unusedSectionVars false

namespace Subduction

open FinMap

/-- A shard of a `BoundedShardedMap`: values with the tick of their last access. -/
abbrev BoundedShard (K V : Type) := FinMap K (V × Nat)

/-- What a call does while it holds the lock of the shard of its key. -/
inductive LockedCall (K V : Type) where
  /-- `get_cloned`, `with_entry`, and the fast path of `with_hydrated_ref` and `with_entry_hydrated`. -/
  | withEntry (key : K) (mutate : V → V)
  /-- `with_entry_or_default`, `get_or_insert_with`, and the install of the others: the value is for a miss. -/
  | getOrInsert (key : K) (value : V) (mutate : V → V)
  | remove (key : K)

def LockedCall.key {K V : Type} : LockedCall K V → K
  | withEntry key _ | getOrInsert key _ _ | remove key => key

/-- `with_capacity`: the share of a shard. -/
def perShardCapacity (shards maxEntries : Nat) : Nat := max ((maxEntries + shards - 1) / shards) 1

section Bounded

variable {K V : Type} [DecidableEq K] [IterOrder K]

/-- `evict_if_full_locked`. -/
def BoundedShard.evictIfFull (shard : BoundedShard K V) (cap : Nat) (incoming : K) : BoundedShard K V :=
  if shard.keys.card < cap ∨ incoming ∈ shard.keys then shard
  else (shard.entries.argmin fun entry => entry.2.2).elim shard fun victim => shard.erase victim.1

/-- **The shard after a call** with the tick that it has drawn. -/
def BoundedShard.step (cap : Nat) (shard : BoundedShard K V) : Nat × LockedCall K V → BoundedShard K V
  | (tick, .withEntry key mutate) => shard.modify key fun entry => (mutate entry.1, tick)
  | (tick, .getOrInsert key value mutate) =>
    if key ∈ shard.keys then shard.modify key fun entry => (mutate entry.1, tick)
    else (shard.evictIfFull cap key).insert key (value, tick)
  | (_, .remove key) => shard.erase key

/-- The calls in the order in which they get the lock. -/
def BoundedShard.run (shards maxEntries : Nat) (calls : List (Nat × LockedCall K V)) : BoundedShard K V :=
  calls.foldl (step (perShardCapacity shards maxEntries)) ∅

variable {cap : Nat} {shard : BoundedShard K V} {call : Nat × LockedCall K V}

/-- **What a call does to a shard**: its own entry gets its tick, the others stay as they are; only what is
removed goes, or what has the smallest tick in a full shard. -/
structure Applied (cap : Nat) (call : Nat × LockedCall K V) (shard after : BoundedShard K V) : Prop where
  kept : ∀ {other entry}, after.get? other = some entry →
    other = call.2.key ∧ entry.2 = call.1 ∨ other ≠ call.2.key ∧ shard.get? other = some entry
  lost : ∀ {other entry}, shard.get? other = some entry → after.get? other = none →
    call.2 = .remove other ∨ cap ≤ shard.keys.card ∧ call.2.key ∉ shard.keys ∧
      ∀ another found, shard.get? another = some found → entry.2 ≤ found.2
  card : shard.keys.card ≤ cap → after.keys.card ≤ cap

theorem BoundedShard.keys_erase (key : K) : (shard.erase key).keys = shard.keys.erase key := by
  ext other
  rw [mem_keys, Finset.mem_erase, mem_keys, get?_erase]
  by_cases same : other = key <;> simp [same]

theorem applied_modify (call : Nat × LockedCall K V) (mutate : V → V) :
    Applied cap call shard (shard.modify call.2.key fun entry => (mutate entry.1, call.1)) := by
  refine ⟨fun stored => ?_, fun stored gone => ?_, id⟩
  · grind [get?_modify, Option.map_eq_some_iff]
  · grind [get?_modify]

theorem applied_evict (call : Nat × LockedCall K V) {value : V} (positive : 0 < cap)
    (isNew : call.2.key ∉ shard.keys) :
    Applied cap call shard ((shard.evictIfFull cap call.2.key).insert call.2.key (value, call.1)) := by
  unfold BoundedShard.evictIfFull
  by_cases room : shard.keys.card < cap
  · rw [if_pos (Or.inl room)]
    refine ⟨fun stored => ?_, fun stored gone => ?_, fun _ => (Finset.card_insert_le _ _).trans room⟩
    · grind [get?_insert]
    · grind [get?_insert]
  · rw [if_neg (not_or.mpr ⟨room, isNew⟩)]
    cases least : shard.entries.argmin fun entry => entry.2.2 with
    | none =>
      obtain ⟨key, member⟩ := Finset.card_pos.mp (positive.trans_le (not_lt.mp room))
      obtain ⟨entry, stored⟩ := mem_keys.mp member
      have listed := mem_entries.mpr stored
      rw [List.argmin_eq_none.mp least] at listed
      exact absurd listed List.not_mem_nil
    | some victim =>
      have stands : shard.get? victim.1 = some victim.2 := mem_entries.mp (List.argmin_mem least)
      have smallest {other : K} {found : V × Nat} (stored : shard.get? other = some found) :
          victim.2.2 ≤ found.2 :=
        List.le_of_mem_argmin (f := fun entry : K × V × Nat => entry.2.2) (mem_entries.mpr stored) least
      rw [Option.elim_some]
      refine ⟨fun stored => ?_, fun stored gone => ?_, fun most => ?_⟩
      · grind [get?_insert, get?_erase]
      · grind [get?_insert, get?_erase]
      · refine (Finset.card_insert_le _ _).trans ?_
        rw [BoundedShard.keys_erase, Finset.card_erase_add_one (mem_keys_of_get? stands)]
        exact most

theorem BoundedShard.applied_step (positive : 0 < cap) (shard : BoundedShard K V)
    (call : Nat × LockedCall K V) : Applied cap call shard (shard.step cap call) := by
  obtain ⟨tick, call⟩ := call
  cases call with
  | withEntry key mutate => exact applied_modify (tick, .withEntry key mutate) mutate
  | getOrInsert key value mutate =>
    rw [step]
    split
    · exact applied_modify (tick, .getOrInsert key value mutate) mutate
    · exact applied_evict (tick, .getOrInsert key value mutate) positive ‹_›
  | remove key =>
    rw [step]
    refine ⟨fun stored => ?_, fun stored gone => ?_, fun most => ?_⟩
    · grind [get?_erase, LockedCall.key]
    · grind [get?_erase]
    · rw [keys_erase]
      exact (Finset.card_erase_le).trans most

/-- **An entry that was used lately**: it has at least the tick, and besides it only what was used since. -/
structure Lately (since : Nat) (used : Finset K) (key : K) (shard : BoundedShard K V) : Prop where
  resident : key ∈ shard.keys
  recent : ∀ {entry}, shard.get? key = some entry → since ≤ entry.2
  others : ∀ {other entry}, shard.get? other = some entry → since ≤ entry.2 → other = key ∨ other ∈ used

theorem Lately.step {since : Nat} {used : Finset K} {key : K} (lately : Lately since used key shard)
    (positive : 0 < cap) (later : since ≤ call.1) (isUsed : call.2.key = key ∨ call.2.key ∈ used)
    (kept : call.2 ≠ .remove key) (few : used.card < cap) :
    Lately since used key (shard.step cap call) := by
  have applied := shard.applied_step positive call
  refine ⟨by_contra fun gone => ?_, fun {entry} stored => ?_, fun {other entry} stored isLate => ?_⟩
  · obtain ⟨own, stands⟩ := mem_keys.mp lately.resident
    obtain isRemove | ⟨full, isNew, smallest⟩ := applied.lost stands (get?_eq_none.mpr gone)
    · exact kept isRemove
    -- the other entries and the new key were all used since
    have others : insert call.2.key (shard.keys.erase key) ⊆ used := by
      refine Finset.insert_subset ?_ fun other member => ?_
      · exact isUsed.resolve_left fun same => isNew (same ▸ lately.resident)
      · obtain ⟨different, member⟩ := Finset.mem_erase.mp member
        obtain ⟨entry, stored⟩ := mem_keys.mp member
        have tick := (lately.recent stands).trans (smallest other entry stored)
        exact (lately.others stored tick).resolve_left different
    have count := Finset.card_le_card others
    rw [Finset.card_insert_of_notMem fun member => isNew (Finset.mem_of_mem_erase member),
      Finset.card_erase_add_one lately.resident] at count
    omega
  · rcases applied.kept stored with own | ⟨-, old⟩
    · exact own.2 ▸ later
    · exact lately.recent old
  · rcases applied.kept stored with own | ⟨-, old⟩
    · exact own.1 ▸ isUsed
    · exact lately.others old isLate

/-! ### Runs -/

namespace BoundedShard

variable (shards maxEntries : Nat)

theorem perShardCapacity_pos : 0 < perShardCapacity shards maxEntries := by
  simp [perShardCapacity]

/-- **A shard keeps its bound**, in whatever order the ticks come. -/
theorem shard_bounded (calls : List (Nat × LockedCall K V)) :
    (run shards maxEntries calls).keys.card ≤ perShardCapacity shards maxEntries :=
  List.foldlRecOn (motive := fun shard : BoundedShard K V => shard.keys.card ≤ _) calls _ (Nat.zero_le _)
    fun _ bounded call _ => (applied_step (perShardCapacity_pos _ _) _ call).card bounded

variable {shards maxEntries}

theorem tick_mem_run (calls : List (Nat × LockedCall K V)) {key : K} {entry : V × Nat}
    (stored : (run shards maxEntries calls).get? key = some entry) : entry.2 ∈ calls.map Prod.fst := by
  induction calls using List.reverseRecOn with
  | nil => cases stored
  | append_singleton calls call ih =>
    rw [run, List.foldl_concat] at stored
    rw [List.map_append, List.mem_append]
    rcases (applied_step (perShardCapacity_pos _ _) _ call).kept stored with own | ⟨-, old⟩
    · exact Or.inr (by simp [own.2])
    · exact Or.inl (ih old)

theorem lately_run {since : Nat} {used : Finset K} {key : K} (few : used.card < cap) {shard : BoundedShard K V}
    (lately : Lately since used key shard) {later : List (Nat × LockedCall K V)}
    (fits : ∀ call ∈ later, since ≤ call.1 ∧ (call.2.key = key ∨ call.2.key ∈ used) ∧ call.2 ≠ .remove key) :
    Lately since used key (later.foldl (step cap) shard) :=
  List.foldlRecOn later _ lately fun _ lately call member =>
    have ⟨inOrder, isUsed, kept⟩ := fits call member
    lately.step (Nat.zero_lt_of_lt few) inOrder isUsed kept few

/-- **What was used lately stays.** A key that a call leaves resident is evicted only after calls for as many
other keys as a shard may have, where the ticks before the call are smaller and those after it are not. -/
theorem recently_used_stays (shards maxEntries : Nat) (calls later : List (Nat × LockedCall K V))
    (call : Nat × LockedCall K V) (earlier : ∀ other ∈ calls, other.1 < call.1)
    (inOrder : ∀ other ∈ later, call.1 ≤ other.1) (kept : ∀ other ∈ later, other.2 ≠ .remove call.2.key)
    (resident : call.2.key ∈ (run shards maxEntries (calls ++ [call])).keys)
    (few : ((later.map fun other => other.2.key).toFinset.erase call.2.key).card <
      perShardCapacity shards maxEntries) :
    call.2.key ∈ (run shards maxEntries (calls ++ call :: later)).keys := by
  have applied := applied_step (perShardCapacity_pos shards maxEntries) (run shards maxEntries calls) call
  have start : Lately call.1 ((later.map fun other => other.2.key).toFinset.erase call.2.key) call.2.key
      ((run shards maxEntries calls).step (perShardCapacity shards maxEntries) call) := by
    rw [run, List.foldl_concat] at resident
    refine ⟨resident, fun stored => ?_, fun stored isLate => ?_⟩
    · rcases applied.kept stored with own | ⟨different, -⟩
      · exact own.2.ge
      · exact absurd rfl different
    · rcases applied.kept stored with own | ⟨-, old⟩
      · exact Or.inl own.1
      · obtain ⟨first, listed, isTick⟩ := List.mem_map.mp (tick_mem_run calls old)
        exact absurd (isTick ▸ earlier first listed) isLate.not_gt
  rw [run, List.foldl_append, List.foldl_cons]
  refine (lately_run few start fun other member => ⟨inOrder other member, ?_, kept other member⟩).resident
  by_cases same : other.2.key = call.2.key
  · exact Or.inl same
  · exact Or.inr (Finset.mem_erase.mpr ⟨same, List.mem_toFinset.mpr (List.mem_map_of_mem member)⟩)

/-- The second of two keys evicts nothing, though the first was used before. -/
theorem second_key_stays : letI := IterOrder.ascending Nat
    (0 : Nat) ∈ (run 1 2 ([] ++ (1, .getOrInsert 0 'a' id) :: [(2, .getOrInsert 1 'b' id)])).keys :=
  letI := IterOrder.ascending Nat
  recently_used_stays 1 2 [] [(2, .getOrInsert 1 'b' id)] (1, .getOrInsert 0 'a' id) (by simp) (by simp)
    (by simp) (by decide +kernel) (by decide +kernel)

end BoundedShard

end Bounded

end Subduction
