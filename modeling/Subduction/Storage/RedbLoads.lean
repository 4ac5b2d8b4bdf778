/-
**The loads of the redb storage agree.**

The full load decodes the records in the order of their keys. It reserves a slot for each, reads the files
of the external blobs afterwards, and puts what it read back in the reserved slots; an item is skipped at
any of four points. The load of the metadata looks at each record once and only asks for the size of a file.

* **`resolveItems_eq`** — it resolves the records one by one, in their order.
* **`RedbTable.loads_agree`**.
-/

import Subduction.Storage.Redb

set_option linter.unusedSectionVars false

namespace Subduction

open List

section Slots

variable {α : Type} [Ed25519] [DecodeFields α] [HasBlobMeta α]

/-- An external item whose file is still to be read: slot, signed payload, digest and size of the blob. -/
abbrev PendingBlob (α : Type) := Nat × Signed α × Digest Blob × UInt64

/-- The first phase of `resolve_items` for one record. -/
def reserve (state : List (Option (TrustedMeta α)) × List (PendingBlob α)) (item : DecodedCompound) :
    List (Option (TrustedMeta α)) × List (PendingBlob α) :=
  let (slots, pending) := state
  match item with
  | .inline signed blob => (slots ++ [decodeVerified signed ⟨blob⟩], pending)
  | .external bytes =>
    match Signed.tryDecode (α := α) bytes with
    | .error _ => (slots ++ [none], pending)
    | .ok signed =>
      match signed.tryDecodeTrustedPayload with
      | .error _ => (slots ++ [none], pending)
      | .ok payload =>
        let blobMeta := HasBlobMeta.blobMeta payload
        (slots ++ [none], pending ++ [(slots.length, signed, blobMeta.digest, blobMeta.sizeBytes)])

/-- The last phase of `resolve_items` for one file. -/
def fillSlot (files : BlobFiles) (slots : List (Option (TrustedMeta α))) (pending : PendingBlob α) :
    List (Option (TrustedMeta α)) :=
  let (slot, signed, digest, expectedSize) := pending
  match files digest with
  | none => slots
  | some blob =>
    if UInt64.ofNat blob.length = expectedSize then
      match tryFromTrusted signed ⟨blob⟩ with
      | some verified => slots.set slot (some verified)
      | none => slots
    else slots

/-- `resolve_items`. -/
def resolveItems (files : BlobFiles) (items : List DecodedCompound) : List (TrustedMeta α) :=
  let (slots, pending) := items.foldl reserve ([], [])
  (pending.foldl (fillSlot files) slots).reduceOption

theorem length_fillSlot (files : BlobFiles) (slots : List (Option (TrustedMeta α)))
    (pending : PendingBlob α) : (fillSlot files slots pending).length = slots.length := by
  unfold fillSlot
  dsimp only
  split
  · rfl
  · split_ifs
    · split
      · exact length_set
      · rfl
    · rfl

theorem fillSlot_append (files : BlobFiles) {slots : List (Option (TrustedMeta α))}
    {pending : PendingBlob α} (inside : pending.1 < slots.length) (last : Option (TrustedMeta α)) :
    fillSlot files (slots ++ [last]) pending = fillSlot files slots pending ++ [last] := by
  unfold fillSlot
  dsimp only
  split
  · rfl
  · split_ifs
    · split
      · exact set_append_left _ _ inside
      · rfl
    · rfl

theorem foldl_fillSlot_append (files : BlobFiles) (pending : List (PendingBlob α))
    {slots : List (Option (TrustedMeta α))} (inside : ∀ each ∈ pending, each.1 < slots.length)
    (last : Option (TrustedMeta α)) :
    pending.foldl (fillSlot files) (slots ++ [last]) = pending.foldl (fillSlot files) slots ++ [last] := by
  induction pending generalizing slots with
  | nil => rfl
  | cons first pending ih =>
    rw [foldl_cons, foldl_cons, fillSlot_append files (inside first mem_cons_self)]
    refine ih fun each later => ?_
    rw [length_fillSlot]
    exact inside each (mem_cons_of_mem _ later)

/-- **The slots of the records so far**: filled, they hold what each record is resolved to. -/
structure Reserves (files : BlobFiles) (items : List DecodedCompound)
    (state : List (Option (TrustedMeta α)) × List (PendingBlob α)) : Prop where
  length : state.1.length = items.length
  inside : ∀ pending ∈ state.2, pending.1 < state.1.length
  filled : state.2.foldl (fillSlot files) state.1 = items.map (resolveItem files)

variable {items : List DecodedCompound}
  {state : List (Option (TrustedMeta α)) × List (PendingBlob α)}

section

variable {files : BlobFiles} (reserves : Reserves files items state)

include reserves

theorem Reserves.settled
    {item : DecodedCompound} {last : Option (TrustedMeta α)} (same : resolveItem files item = last) :
    Reserves files (items ++ [item]) (state.1 ++ [last], state.2) where
  length := by simp [reserves.length]
  inside pending listed := by
    have := reserves.inside pending listed
    rw [length_append]
    omega
  filled := by
    rw [foldl_fillSlot_append files _ reserves.inside, reserves.filled, map_append, ← same]
    rfl

theorem Reserves.later
    {item : DecodedCompound} {signed : Signed α} {digest : Digest Blob} {size : UInt64}
    (same : fillSlot files [none] (0, signed, digest, size) = [resolveItem files item]) :
    Reserves files (items ++ [item])
      (state.1 ++ [none], state.2 ++ [(state.1.length, signed, digest, size)]) where
  length := by simp [reserves.length]
  inside pending listed := by
    rw [length_append]
    rcases mem_append.mp listed with before | now
    · have := reserves.inside pending before
      omega
    · rw [mem_singleton.mp now]
      exact Nat.lt_succ_self _
  filled := by
    rw [foldl_append, foldl_fillSlot_append files _ reserves.inside, reserves.filled,
      map_append, map_singleton, ← same, foldl_cons, foldl_nil, reserves.length]
    unfold fillSlot
    dsimp only
    split
    · rfl
    · split_ifs
      · split
        · rw [set_append_right _ _ (by simp)]
          simp
        · rfl
      · rfl

theorem Reserves.step
    (item : DecodedCompound) : Reserves files (items ++ [item]) (reserve state item) := by
  obtain ⟨slots, pending⟩ := state
  unfold reserve
  cases item with
  | inline signed blob => exact reserves.settled rfl
  | external bytes =>
    dsimp only
    split
    · rename_i failed
      exact reserves.settled (by simp only [resolveItem, failed])
    · rename_i signed decoded
      split
      · rename_i failed
        exact reserves.settled (by simp only [resolveItem, decoded, failed])
      · rename_i payload decodes
        refine reserves.later ?_
        simp only [resolveItem, decoded, decodes, externalBlob, fillSlot]
        cases files (HasBlobMeta.blobMeta payload).digest with
        | none => rfl
        | some blob =>
          simp only [Option.filter_some, decide_eq_true_eq]
          split_ifs with fits
          · simp only [tryFromTrusted_eq decodes, set_cons_zero]
          · rfl

end

theorem resolveItems_eq (files : BlobFiles) (items : List DecodedCompound) :
    resolveItems (α := α) files items = items.filterMap (resolveItem files) := by
  have reserves : Reserves (α := α) files items (items.foldl reserve ([], [])) := by
    induction items using List.reverseRecOn with
    | nil => exact ⟨rfl, by simp, rfl⟩
    | append_singleton items item ih =>
      rw [foldl_append]
      exact ih.step item
  unfold resolveItems
  dsimp only
  rw [reserves.filled]
  exact filterMap_map

end Slots

namespace RedbTable

variable {α : Type} [Ed25519] [DecodeFields α] [HasBlobMeta α]

/-- `scan_decoded`. -/
def scanDecoded (table : RedbTable) (inRange : Key96 → Bool) : List DecodedCompound :=
  ((table.entries.filter fun entry => inRange entry.1).map Prod.snd).filterMap decodeCompound

variable (table : RedbTable) (files : BlobFiles)

/-- `load_loose_commits`, `load_fragments`. -/
def loadAll (tree : SedimentreeId) : List (TrustedMeta α) :=
  resolveItems files (table.scanDecoded (Key96.inTree tree))

/-- `load_loose_commit`, `load_fragment`. -/
def loadOne (tree : SedimentreeId) (id : CommitId) : Option (TrustedMeta α) :=
  (resolveItems files (table.scanDecoded (Key96.inItem tree id))).head?

/-- The items of a tree with the identity they are stored under. -/
def loadKeyed (tree : SedimentreeId) : List (CommitId × TrustedMeta α) :=
  (table.entries.filter fun entry => Key96.inTree tree entry.1).filterMap fun entry =>
    (loadRecord files entry.2).map (entry.1.item, ·)

theorem resolveItems_scanDecoded (inRange : Key96 → Bool) :
    resolveItems (α := α) files (table.scanDecoded inRange) =
      (table.entries.filter fun entry => inRange entry.1).filterMap fun entry =>
        loadRecord files entry.2 := by
  rw [resolveItems_eq, scanDecoded, filterMap_filterMap, filterMap_map]
  rfl

/-- **The loads agree in every stored state**: the items of the full load stand under their identities,
the metadata are their payloads in the same order, and the point load is the first one under its identity. -/
theorem loads_agree (table : RedbTable) (files : BlobFiles) (tree : SedimentreeId) :
    table.loadAll (α := α) files tree = (table.loadKeyed files tree).map Prod.snd ∧
      table.loadMetas (α := α) files tree = (table.loadAll files tree).map TrustedMeta.payload ∧
      ∀ id, table.loadOne (α := α) files tree id =
        ((table.loadKeyed files tree).find? fun entry => entry.1 = id).map Prod.snd := by
  have keyed : table.loadAll (α := α) files tree = (table.loadKeyed files tree).map Prod.snd := by
    rw [loadAll, resolveItems_scanDecoded, loadKeyed, List.map_filterMap]
    simp [Function.comp_def]
  refine ⟨keyed, ?_, fun id => ?_⟩
  · rw [loadMetas_eq, loadAll, resolveItems_scanDecoded, loadItems, scan, List.filterMap_map]
    rfl
  · rw [loadOne, resolveItems_scanDecoded, ← List.head?_filter, loadKeyed]
    induction table.entries with
    | nil => rfl
    | cons entry entries ih =>
      by_cases inTree : entry.1.tree = tree
      · by_cases isItem : entry.1.item = id
        · cases read : loadRecord (α := α) files entry.2 with
          | none => simpa [Key96.inItem, Key96.inTree, inTree, isItem, read] using ih
          | some loaded => simp [Key96.inItem, Key96.inTree, inTree, isItem, read]
        · cases read : loadRecord (α := α) files entry.2 with
          | none => simpa [Key96.inItem, Key96.inTree, inTree, isItem, read] using ih
          | some loaded => simpa [Key96.inItem, Key96.inTree, inTree, isItem, read] using ih
      · simpa [Key96.inItem, Key96.inTree, inTree] using ih

end RedbTable

end Subduction
