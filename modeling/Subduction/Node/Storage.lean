/-
**What a node stores of its documents.**

The items of a document are stored under the digest of their payload; an item whose digest is present
is not stored again. The document is the one the caller names: the stores do not read the document
that an item was signed for.

* **`MemoryStorage.has_saveBatch`**, **`MemoryStorage.exists_digest_saveBatch`** — after a batch there
  is nothing but what was there and the batch, and there is an item under every digest of it.
-/

import Subduction.Core.Minimized
import Subduction.Crypto.Signed

set_option linter.unusedSectionVars false

namespace Subduction

open Function

/-! ### The items of one kind -/

section Store

variable {α : Type} [Blake3] [DecodeFields α] [HasBlobMeta α]

/-- **The items of one kind, by document and digest of the payload.** -/
structure ItemStore (α : Type) [Blake3] [DecodeFields α] [HasBlobMeta α] where
  items : SedimentreeId → FinMap (Digest α) (VerifiedMeta α)
  digest_eq : ∀ {id : SedimentreeId} {digest : Digest α} {verified : VerifiedMeta α},
    (items id).get? digest = some verified → Digest.hash verified.payload = digest

namespace ItemStore

instance : EmptyCollection (ItemStore α) := ⟨⟨fun _ => ∅, by simp⟩⟩

section

variable (store : ItemStore α) (id : SedimentreeId)

variable {store id} in
/-- What stands under a digest after a save was there before, or is the item that was saved. -/
theorem get?_save_cases {verified found : VerifiedMeta α} {other : SedimentreeId} {digest : Digest α}
    (stored : (Function.update store.items id ((store.items id).orInsert
      (Digest.hash verified.payload) verified) other).get? digest = some found) :
    (store.items other).get? digest = some found ∨
      other = id ∧ digest = Digest.hash verified.payload ∧ found = verified := by
  by_cases same : other = id
  · subst same
    rw [update_self, FinMap.get?_orInsert] at stored
    split at stored
    · rename_i ours
      rw [← ours] at stored
      cases old : (store.items other).get? digest with
      | some kept => exact Or.inl (by rwa [old] at stored)
      | none => exact Or.inr ⟨rfl, ours, by rw [old] at stored; exact (Option.some.inj stored).symm⟩
    · exact Or.inl stored
  · rw [update_of_ne same] at stored
    exact Or.inl stored

/-- Store an item of the document, unless its digest is present. -/
def save (verified : VerifiedMeta α) : ItemStore α where
  items := Function.update store.items id
    ((store.items id).orInsert (Digest.hash verified.payload) verified)
  digest_eq stored := by
    rcases get?_save_cases stored with old | ⟨-, rfl, rfl⟩
    · exact store.digest_eq old
    · rfl

theorem get?_items_save (verified : VerifiedMeta α) (digest : Digest α) :
    ((store.save id verified).items id).get? digest =
      if digest = Digest.hash verified.payload
      then some (((store.items id).get? (Digest.hash verified.payload)).getD verified)
      else (store.items id).get? digest := by
  show (Function.update store.items id _ id).get? digest = _
  rw [update_self, FinMap.get?_orInsert]

def saveAll (batch : List (VerifiedMeta α)) : ItemStore α :=
  batch.foldl (fun store verified => store.save id verified) store

def delete : ItemStore α where
  items := Function.update store.items id ∅
  digest_eq := by
    intro other digest verified stored
    by_cases same : other = id
    · subst same
      rw [Function.update_self] at stored
      exact nomatch stored
    · rw [Function.update_of_ne same] at stored
      exact store.digest_eq stored

end

def metas [IterOrder (Digest α)] (store : ItemStore α) (id : SedimentreeId) : List α :=
  (store.items id).values.map VerifiedMeta.payload

/-- The payload is stored for the document. -/
def Has (store : ItemStore α) (id : SedimentreeId) (payload : α) : Prop :=
  ∃ digest verified, (store.items id).get? digest = some verified ∧ verified.payload = payload

theorem mem_metas [IterOrder (Digest α)] {store : ItemStore α} {id : SedimentreeId} {payload : α} :
    payload ∈ store.metas id ↔ store.Has id payload := by
  unfold metas Has
  rw [List.mem_map]
  refine ⟨fun ⟨verified, member, same⟩ => ?_, fun ⟨digest, verified, stored, same⟩ => ?_⟩
  · obtain ⟨digest, stored⟩ := FinMap.mem_values.mp member
    exact ⟨digest, verified, stored, same⟩
  · exact ⟨verified, FinMap.mem_values.mpr ⟨digest, stored⟩, same⟩

theorem has_iff {store : ItemStore α} {id : SedimentreeId} {payload : α} : store.Has id payload ↔
    ((store.items id).get? (Digest.hash payload)).map VerifiedMeta.payload = some payload := by
  rw [Option.map_eq_some_iff]
  refine ⟨fun ⟨digest, verified, stored, same⟩ => ?_, fun ⟨verified, stored, same⟩ => ⟨_, verified, stored, same⟩⟩
  have isDigest := store.digest_eq stored
  rw [same] at isDigest
  rw [isDigest]
  exact ⟨verified, stored, same⟩

instance [DecidableEq α] (store : ItemStore α) (id : SedimentreeId) (payload : α) :
    Decidable (store.Has id payload) := decidable_of_iff _ has_iff.symm

theorem not_has_empty (id : SedimentreeId) (payload : α) : ¬ (∅ : ItemStore α).Has id payload :=
  fun ⟨_, _, stored, _⟩ => nomatch stored

variable {store : ItemStore α} {id other : SedimentreeId} {payload : α}

theorem has_save {verified : VerifiedMeta α} (has : (store.save id verified).Has other payload) :
    store.Has other payload ∨ (other = id ∧ payload = verified.payload) := by
  obtain ⟨digest, found, stored, rfl⟩ := has
  rcases get?_save_cases stored with old | ⟨same, -, rfl⟩
  · exact Or.inl ⟨digest, found, old, rfl⟩
  · exact Or.inr ⟨same, rfl⟩

theorem Has.save (has : store.Has other payload) (id : SedimentreeId) (verified : VerifiedMeta α) :
    (store.save id verified).Has other payload := by
  obtain ⟨digest, found, stored, same⟩ := has
  refine ⟨digest, found, ?_, same⟩
  by_cases sameId : other = id
  · subst sameId
    rw [get?_items_save]
    split
    · rename_i ours
      rw [← ours, stored, Option.getD_some]
    · exact stored
  · exact (congrArg (FinMap.get? · digest) (update_of_ne sameId _ _)).trans stored

theorem exists_digest_save (store : ItemStore α) (id : SedimentreeId) (verified : VerifiedMeta α) :
    ∃ found, (store.save id verified).Has id found ∧
      Digest.hash found = Digest.hash verified.payload := by
  have stored := store.get?_items_save id verified (Digest.hash verified.payload)
  rw [if_pos rfl] at stored
  exact ⟨_, ⟨_, _, stored, rfl⟩, (store.save id verified).digest_eq stored⟩

/-- **After a deletion** the other documents have what they had, and this one has nothing. -/
theorem has_delete : (store.delete id).Has other payload ↔ other ≠ id ∧ store.Has other payload := by
  unfold Has delete
  by_cases same : other = id
  · subst same
    simp
  · simp only [update_of_ne same]
    exact (and_iff_right same).symm

variable (batch : List (VerifiedMeta α))

theorem Has.saveAll {store : ItemStore α}
    (has : store.Has other payload) : (store.saveAll id batch).Has other payload := by
  induction batch generalizing store with
  | nil => exact has
  | cons verified batch ih => exact ih (has.save id verified)

/-- **After a batch** there is nothing but what was there and the batch. -/
theorem has_saveAll {store : ItemStore α} (has : (store.saveAll id batch).Has other payload) :
    store.Has other payload ∨ (other = id ∧ ∃ verified ∈ batch, payload = verified.payload) := by
  induction batch generalizing store with
  | nil => exact Or.inl has
  | cons verified batch ih =>
    rcases ih has with before | ⟨same, later, member, isPayload⟩
    · rcases has_save before with old | ⟨same, isPayload⟩
      · exact Or.inl old
      · exact Or.inr ⟨same, verified, List.mem_cons_self, isPayload⟩
    · exact Or.inr ⟨same, later, List.mem_cons_of_mem _ member, isPayload⟩

/-- **After a batch** there is an item under every digest of the batch. -/
theorem exists_digest_saveAll (store : ItemStore α)
    (id : SedimentreeId) {verified : VerifiedMeta α} (member : verified ∈ batch) :
    ∃ found, (store.saveAll id batch).Has id found ∧
      Digest.hash found = Digest.hash verified.payload := by
  induction batch generalizing store with
  | nil => exact nomatch member
  | cons first batch ih =>
    rcases List.mem_cons.mp member with rfl | later
    · obtain ⟨found, has, sameDigest⟩ := store.exists_digest_save id verified
      exact ⟨found, has.saveAll batch, sameDigest⟩
    · exact ih (store.save id first) later

end ItemStore

end Store

/-! ### Items of both kinds -/

inductive Item where
  | commit (payload : LooseCommit)
  | fragment (payload : Fragment)
deriving DecidableEq

def Item.sedimentreeId : Item → SedimentreeId
  | commit payload => payload.sedimentreeId
  | fragment payload => payload.sedimentreeId

/-- Two items of one kind with the same digest. -/
def Item.SameDigest [Blake3] [Bijou64] : Item → Item → Prop
  | commit first, commit second => Digest.hash first = Digest.hash second
  | fragment first, fragment second => Digest.hash first = Digest.hash second
  | _, _ => False

def Sedimentree.Has (tree : Sedimentree) : Item → Prop
  | .commit payload => tree.commit? payload.head = some payload
  | .fragment payload => tree.fragment? payload.head = some payload

section Trees

variable [IterOrder CommitId] {tree : Sedimentree} {item : Item}

theorem Sedimentree.not_has_empty : ¬ (∅ : Sedimentree).Has item := by
  cases item <;> exact fun has => nomatch has

theorem Sedimentree.has_minimizeInPlace {metric : DepthMetric}
    (has : (tree.minimizeInPlace metric).Has item) : tree.Has item := by
  cases item with
  | commit payload => exact (Shelf.get?_retain.mp has).1
  | fragment payload => exact (Shelf.get?_retain.mp has).1

theorem MinimizedSedimentree.has_ensureMinimized {owner : MinimizedSedimentree} {metric : DepthMetric}
    (has : (owner.ensureMinimized metric).tree.Has item) : owner.tree.Has item := by
  unfold MinimizedSedimentree.ensureMinimized at has
  split at has
  · exact Sedimentree.has_minimizeInPlace has
  · exact has

variable [Blake3] [Bijou64]

theorem Sedimentree.has_addCommit {commit : LooseCommit} (has : (tree.addCommit commit).1.Has item) :
    tree.Has item ∨ item = .commit commit := by
  cases item with
  | commit payload => exact (Shelf.get?_add has).imp_right (congrArg Item.commit)
  | fragment payload => exact Or.inl has

theorem Sedimentree.has_addFragment {fragment : Fragment}
    (has : (tree.addFragment fragment).1.Has item) : tree.Has item ∨ item = .fragment fragment := by
  cases item with
  | commit payload => exact Or.inl has
  | fragment payload => exact (Shelf.get?_add has).imp_right (congrArg Item.fragment)

end Trees

/-! ### The storage of a node -/

section Memory

variable [Blake3] [Bijou64Codec]

/-- **The in-memory storage.** Its documents are registered by every save. -/
structure MemoryStorage where
  ids : Finset SedimentreeId
  commits : ItemStore LooseCommit
  fragments : ItemStore Fragment

namespace MemoryStorage

/-- `MemoryStorage::new`. -/
def new : MemoryStorage := ⟨∅, ∅, ∅⟩

section

variable (storage : MemoryStorage) (id : SedimentreeId)

/-- `save_loose_commit`. -/
def saveLooseCommit (verified : VerifiedMeta LooseCommit) : MemoryStorage :=
  { storage with ids := insert id storage.ids, commits := storage.commits.save id verified }

/-- `save_fragment`. -/
def saveFragment (verified : VerifiedMeta Fragment) : MemoryStorage :=
  { storage with ids := insert id storage.ids, fragments := storage.fragments.save id verified }

/-- `save_batch`: also the number of the items. -/
def saveBatch (commits : List (VerifiedMeta LooseCommit))
    (fragments : List (VerifiedMeta Fragment)) : MemoryStorage × Nat :=
  (⟨insert id storage.ids, storage.commits.saveAll id commits, storage.fragments.saveAll id fragments⟩,
    commits.length + fragments.length)

/-- `delete_loose_commits`. -/
def deleteLooseCommits : MemoryStorage :=
  { storage with commits := storage.commits.delete id }

/-- `delete_fragments`. -/
def deleteFragments : MemoryStorage :=
  { storage with fragments := storage.fragments.delete id }

/-- `delete_sedimentree_id`. -/
def deleteSedimentreeId : MemoryStorage :=
  { storage with ids := storage.ids.erase id }

/-- The item is stored for the document. -/
def Has : Item → Prop
  | .commit payload => storage.commits.Has id payload
  | .fragment payload => storage.fragments.Has id payload

end

instance (storage : MemoryStorage) (id : SedimentreeId) : ∀ item, Decidable (storage.Has id item)
  | .commit payload => inferInstanceAs (Decidable (storage.commits.Has id payload))
  | .fragment payload => inferInstanceAs (Decidable (storage.fragments.Has id payload))

inductive Listed (commits : List (VerifiedMeta LooseCommit)) (fragments : List (VerifiedMeta Fragment)) :
    Item → Prop
  | commit {verified} : verified ∈ commits → Listed commits fragments (.commit verified.payload)
  | fragment {verified} : verified ∈ fragments → Listed commits fragments (.fragment verified.payload)

theorem saveLooseCommit_eq (storage : MemoryStorage) (id : SedimentreeId)
    (verified : VerifiedMeta LooseCommit) :
    storage.saveLooseCommit id verified = (storage.saveBatch id [verified] []).1 := rfl

theorem saveFragment_eq (storage : MemoryStorage) (id : SedimentreeId)
    (verified : VerifiedMeta Fragment) :
    storage.saveFragment id verified = (storage.saveBatch id [] [verified]).1 := rfl

section Batch

variable {storage : MemoryStorage} {id other : SedimentreeId}
  {commits : List (VerifiedMeta LooseCommit)} {fragments : List (VerifiedMeta Fragment)} {item : Item}

theorem has_saveBatch (has : (storage.saveBatch id commits fragments).1.Has other item) :
    storage.Has other item ∨ (other = id ∧ Listed commits fragments item) := by
  cases item with
  | commit payload =>
    rcases ItemStore.has_saveAll commits has with old | ⟨same, verified, member, rfl⟩
    · exact Or.inl old
    · exact Or.inr ⟨same, .commit member⟩
  | fragment payload =>
    rcases ItemStore.has_saveAll fragments has with old | ⟨same, verified, member, rfl⟩
    · exact Or.inl old
    · exact Or.inr ⟨same, .fragment member⟩

theorem Has.saveBatch (has : storage.Has other item) :
    (storage.saveBatch id commits fragments).1.Has other item := by
  cases item with
  | commit payload => exact ItemStore.Has.saveAll commits has
  | fragment payload => exact ItemStore.Has.saveAll fragments has

theorem exists_digest_saveBatch (storage : MemoryStorage) (id : SedimentreeId)
    (listed : Listed commits fragments item) :
    ∃ found, (storage.saveBatch id commits fragments).1.Has id found ∧ found.SameDigest item := by
  cases listed with
  | commit member =>
    obtain ⟨found, has, same⟩ := ItemStore.exists_digest_saveAll commits storage.commits id member
    exact ⟨.commit found, has, same⟩
  | fragment member =>
    obtain ⟨found, has, same⟩ :=
      ItemStore.exists_digest_saveAll fragments storage.fragments id member
    exact ⟨.fragment found, has, same⟩

end Batch

section Load

variable [IterOrder (Digest LooseCommit)] [IterOrder (Digest Fragment)]

section

variable (storage : MemoryStorage) (id : SedimentreeId)

/-- `load_loose_commit_metas`. -/
def loadLooseCommitMetas : List LooseCommit :=
  storage.commits.metas id

/-- `load_fragment_metas`. -/
def loadFragmentMetas : List Fragment :=
  storage.fragments.metas id

def storedTree : Sedimentree :=
  Sedimentree.new (storage.loadFragmentMetas id) (storage.loadLooseCommitMetas id)

/-- `load_tree` and `load_tree_via_putter`: nothing where no item is stored. -/
def loadTree : Option MinimizedSedimentree :=
  if (storage.loadLooseCommitMetas id).isEmpty && (storage.loadFragmentMetas id).isEmpty then none
  else some (.new (storage.storedTree id))

end

variable [IterOrder CommitId] {storage : MemoryStorage} {id : SedimentreeId} {item : Item}

theorem has_of_storedTree (has : (storage.storedTree id).Has item) : storage.Has id item := by
  cases item with
  | commit payload | fragment payload => exact ItemStore.mem_metas.mp (Shelf.mem_of_get?_ofList has)

theorem has_of_loadTree {owner : MinimizedSedimentree} (loaded : storage.loadTree id = some owner)
    (has : owner.tree.Has item) : storage.Has id item := by
  unfold loadTree at loaded
  split at loaded
  · exact nomatch loaded
  · rw [← Option.some.inj loaded] at has
    exact has_of_storedTree has

end Load

end MemoryStorage

end Memory

end Subduction
