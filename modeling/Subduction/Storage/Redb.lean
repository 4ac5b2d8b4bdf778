/-
**The tables of the redb storage.**

Each item is one record under the key of its tree, its identity and the digest of its payload. A record
holds the signed bytes, and the blob as well unless it is larger than the inline threshold; then the blob
is a file of its own, named by its digest. Records are read by their tag, whatever the threshold is now.

* **`decodeCompound_encodeInline`**, **`decodeCompound_encodeExternal`** — records are read back.
* **`scanPayload_eq`** — the load of the metadata reads what the full load reads.
* **`resolve_record`** — a record with its blob in place is read back as the item.
-/

import Mathlib.Data.Prod.Lex
import Subduction.Storage.Trusted

set_option linter.unusedSectionVars false

namespace Subduction

open List

/-! ### Keys -/

/-- **The key of a record**: tree, identity and digest of the payload. -/
structure Key96 where
  tree : SedimentreeId
  item : CommitId
  digest : BitVec (8 * 32)
deriving DecidableEq

namespace Key96

/-- The bytes of a key in their order. -/
def rank (key : Key96) : Nat ×ₗ Nat ×ₗ Nat :=
  toLex (key.tree.bytes.toNat, toLex (key.item.bytes.toNat, key.digest.toNat))

theorem rank_injective : Function.Injective rank := by
  intro ⟨⟨tree⟩, ⟨item⟩, digest⟩ ⟨⟨tree'⟩, ⟨item'⟩, digest'⟩ same
  simp only [rank, EmbeddingLike.apply_eq_iff_eq, Prod.mk.injEq] at same
  obtain ⟨trees, items, digests⟩ := same
  rw [BitVec.eq_of_toNat_eq trees, BitVec.eq_of_toNat_eq items, BitVec.eq_of_toNat_eq digests]

/-- Keys sort by their bytes. -/
instance : LinearOrder Key96 := LinearOrder.lift' rank rank_injective

/-- A range scan visits the keys in ascending order. -/
instance : IterOrder Key96 := IterOrder.ascending Key96

/-- `tree_range`. -/
def inTree (tree : SedimentreeId) (key : Key96) : Bool := decide (key.tree = tree)

/-- `item_range`. -/
def inItem (tree : SedimentreeId) (item : CommitId) (key : Key96) : Bool :=
  decide (key.tree = tree ∧ key.item = item)

end Key96

/-! ### Records -/

/-- `TAG_INLINE`. -/
def tagInline : UInt8 := 0

/-- `TAG_EXTERNAL`. -/
def tagExternal : UInt8 := 1

/-- A record, before its blob is looked up. -/
inductive DecodedCompound where
  | inline (signed blob : List UInt8)
  | external (signed : List UInt8)
deriving DecidableEq

/-- `encode_inline`; the length of the signed bytes is cut to 32 bits. -/
def encodeInline (signed blob : List UInt8) : List UInt8 :=
  tagInline :: (bytesBE 4 (BitVec.ofNat (8 * 4) signed.length) ++ (signed ++ blob))

/-- `encode_external`. -/
def encodeExternal (signed : List UInt8) : List UInt8 := tagExternal :: signed

/-- `decode_compound`. -/
def decodeCompound : List UInt8 → Option DecodedCompound
  | [] => none
  | tag :: rest =>
    if tag = tagInline then
      let size := natOfBytes (rest.take 4)
      if rest.length < 4 then none
      else if (rest.drop 4).length < size then none
      else some (.inline ((rest.drop 4).take size) ((rest.drop 4).drop size))
    else if tag = tagExternal then some (.external rest)
    else none

/-- `split_meta`: whether the blob is a file of its own, and the signed bytes. -/
def splitMeta : List UInt8 → Option (Bool × List UInt8)
  | [] => none
  | tag :: rest =>
    if tag = tagInline then
      let size := natOfBytes (rest.take 4)
      if rest.length < 4 then none
      else if (rest.drop 4).length < size then none
      else some (false, (rest.drop 4).take size)
    else if tag = tagExternal then some (true, rest)
    else none

theorem natOfBytes_size {size : Nat} (short : size < 2 ^ 32) :
    natOfBytes (bytesBE 4 (BitVec.ofNat (8 * 4) size)) = size := by
  have read := ofBytesBE_bytesBE 4 (BitVec.ofNat (8 * 4) size)
  have same := congrArg BitVec.toNat read
  have bound := natOfBytes_lt (bytesBE 4 (BitVec.ofNat (8 * 4) size))
  rw [length_bytesBE] at bound
  unfold ofBytesBE at same
  simp only [BitVec.toNat_ofNat] at same
  omega

theorem decodeCompound_encodeInline {signed : List UInt8} (short : signed.length < 2 ^ 32)
    (blob : List UInt8) : decodeCompound (encodeInline signed blob) = some (.inline signed blob) := by
  have front : (bytesBE 4 (BitVec.ofNat (8 * 4) signed.length)).length = 4 := length_bytesBE 4 _
  have size : natOfBytes ((bytesBE 4 (BitVec.ofNat (8 * 4) signed.length) ++ (signed ++ blob)).take 4) =
      signed.length := by
    rw [take_left' front, natOfBytes_size short]
  have body : (bytesBE 4 (BitVec.ofNat (8 * 4) signed.length) ++ (signed ++ blob)).drop 4 =
      signed ++ blob := drop_left' front
  unfold decodeCompound encodeInline
  dsimp only
  rw [if_pos rfl, size, body, take_left, drop_left, if_neg, if_neg]
  · simp
  · simp

theorem decodeCompound_encodeExternal (signed : List UInt8) :
    decodeCompound (encodeExternal signed) = some (.external signed) := rfl

/-- The signed bytes of a record, without the blob. -/
def DecodedCompound.split : DecodedCompound → Bool × List UInt8
  | inline signed _ => (false, signed)
  | external signed => (true, signed)

theorem splitMeta_eq (value : List UInt8) : splitMeta value = (decodeCompound value).map DecodedCompound.split := by
  cases value with
  | nil => rfl
  | cons tag rest =>
    unfold splitMeta decodeCompound
    dsimp only
    split_ifs <;> rfl

/-! ### Reading items -/

section Load

variable {α : Type} [Ed25519] [DecodeFields α] [HasBlobMeta α]

/-- The blob files, by the digest that names them. -/
abbrev BlobFiles := Digest Blob → Option (List UInt8)

/-- The file of a payload, if it has the size that the payload claims. -/
def externalBlob (files : BlobFiles) (payload : α) : Option (List UInt8) :=
  (files (HasBlobMeta.blobMeta payload).digest).filter fun blob =>
    decide (UInt64.ofNat blob.length = (HasBlobMeta.blobMeta payload).sizeBytes)

/-- `resolve_items` for one record: the files are read in parallel and put back in the order of the
records. -/
def resolveItem (files : BlobFiles) : DecodedCompound → Option (TrustedMeta α)
  | .inline signed blob => decodeVerified signed ⟨blob⟩
  | .external bytes =>
    match Signed.tryDecode (α := α) bytes with
    | .error _ => none
    | .ok signed =>
      match signed.tryDecodeTrustedPayload with
      | .error _ => none
      | .ok payload =>
        match externalBlob files payload with
        | none => none
        | some blob => tryFromTrusted signed ⟨blob⟩

variable (files : BlobFiles) (value : List UInt8)

/-- `scan_payloads` for one record. -/
def scanPayload : Option α :=
  match splitMeta value with
  | none => none
  | some (isExternal, bytes) =>
    match decodePayload (α := α) bytes with
    | none => none
    | some payload =>
      if isExternal then (externalBlob files payload).map fun _ => payload else some payload

def loadRecord : Option (TrustedMeta α) :=
  (decodeCompound value).bind (resolveItem files)

theorem scanPayload_eq :
    scanPayload (α := α) files value = (loadRecord files value).map TrustedMeta.payload := by
  unfold scanPayload loadRecord
  rw [splitMeta_eq]
  cases decodeCompound value with
  | none => rfl
  | some decoded =>
    cases decoded with
    | inline signed blob =>
      show (match decodePayload (α := α) signed with
        | none => none
        | some payload => some payload) = (decodeVerified signed ⟨blob⟩).map TrustedMeta.payload
      rw [← decodePayload_eq]
      cases decodePayload (α := α) signed <;> rfl
    | external bytes =>
      show (match decodePayload (α := α) bytes with
        | none => none
        | some payload => (externalBlob files payload).map fun _ => payload) =
        (resolveItem files (.external bytes)).map TrustedMeta.payload
      unfold decodePayload resolveItem
      dsimp only
      cases Signed.tryDecode (α := α) bytes with
      | error failed => rfl
      | ok signed =>
        dsimp only
        cases decodes : signed.tryDecodeTrustedPayload with
        | error failed => rfl
        | ok payload =>
          dsimp only
          cases externalBlob files payload with
          | none => rfl
          | some blob =>
            dsimp only
            rw [tryFromTrusted_eq decodes]
            rfl

end Load

/-! ### Tables -/

abbrev RedbTable := FinMap Key96 (List UInt8)

namespace RedbTable

variable {α : Type} [Ed25519] [DecodeFields α] [HasBlobMeta α]

/-- The records of a tree in the order of their keys. -/
def scan (table : RedbTable) (tree : SedimentreeId) : List (List UInt8) :=
  (table.entries.filter fun entry => Key96.inTree tree entry.1).map Prod.snd

/-- `load_loose_commits` and `load_fragments`. -/
def loadItems (table : RedbTable) (files : BlobFiles) (tree : SedimentreeId) : List (TrustedMeta α) :=
  (table.scan tree).filterMap (loadRecord files)

/-- `load_loose_commit_metas` and `load_fragment_metas`. -/
def loadMetas (table : RedbTable) (files : BlobFiles) (tree : SedimentreeId) : List α :=
  (table.scan tree).filterMap (scanPayload files)

/-- `scan_ids`. -/
def scanIds (table : RedbTable) (tree : SedimentreeId) : Finset CommitId :=
  (table.keys.filter fun key => Key96.inTree tree key).image Key96.item

/-- `delete_range`. -/
def deleteRange (table : RedbTable) (inRange : Key96 → Bool) : RedbTable :=
  table.retain fun key _ => !inRange key

theorem mem_scan {table : RedbTable} {tree : SedimentreeId} {value : List UInt8} :
    value ∈ table.scan tree ↔ ∃ key, key.tree = tree ∧ table.get? key = some value := by
  unfold scan
  rw [mem_map]
  constructor
  · rintro ⟨⟨key, stored⟩, member, rfl⟩
    obtain ⟨listed, inTree⟩ := mem_filter.mp member
    exact ⟨key, of_decide_eq_true inTree, FinMap.mem_entries.mp listed⟩
  · rintro ⟨key, inTree, found⟩
    exact ⟨(key, value), mem_filter.mpr ⟨FinMap.mem_entries.mpr found, decide_eq_true inTree⟩, rfl⟩

theorem mem_loadItems {table : RedbTable} {files : BlobFiles} {tree : SedimentreeId}
    {loaded : TrustedMeta α} : loaded ∈ table.loadItems files tree ↔
      ∃ key value, key.tree = tree ∧ table.get? key = some value ∧
        loadRecord files value = some loaded := by
  unfold loadItems
  rw [mem_filterMap]
  constructor
  · rintro ⟨value, member, read⟩
    obtain ⟨key, inTree, found⟩ := mem_scan.mp member
    exact ⟨key, value, inTree, found, read⟩
  · rintro ⟨key, value, inTree, found, read⟩
    exact ⟨value, mem_scan.mpr ⟨key, inTree, found⟩, read⟩

theorem loadMetas_eq (table : RedbTable) (files : BlobFiles) (tree : SedimentreeId) :
    table.loadMetas (α := α) files tree = (table.loadItems files tree).map TrustedMeta.payload := by
  unfold loadMetas loadItems
  rw [map_filterMap]
  exact congrArg (fun read => (table.scan tree).filterMap read) (funext fun value => scanPayload_eq files value)

theorem get?_deleteRange (table : RedbTable) (inRange : Key96 → Bool) (key : Key96) :
    (table.deleteRange inRange).get? key = if inRange key then none else table.get? key := by
  unfold deleteRange
  rw [FinMap.get?_retain]
  cases inRange key <;> cases table.get? key <;> rfl

end RedbTable

/-! ### Items that are written -/

section Jobs

variable [Blake3] [Ed25519] [Bijou64Codec]

structure WriteJob where
  tree : SedimentreeId
  item : StorableItem

namespace WriteJob

/-- `key96`. -/
def key (job : WriteJob) : Key96 := ⟨job.tree, job.item.head, job.item.digest⟩

def isExternal (job : WriteJob) (inlineThreshold : Nat) : Bool :=
  decide (job.item.blob.contents.length > inlineThreshold)

def record (job : WriteJob) (inlineThreshold : Nat) : List UInt8 :=
  if job.isExternal inlineThreshold then encodeExternal job.item.signedBytes
  else encodeInline job.item.signedBytes job.item.blob.contents

end WriteJob

/-- **The tables.** -/
structure RedbTables where
  trees : Finset SedimentreeId
  commits : RedbTable
  fragments : RedbTable

namespace RedbTables

def empty : RedbTables := ⟨∅, ∅, ∅⟩

def table (tables : RedbTables) : ItemKind → RedbTable
  | .commit => tables.commits
  | .fragment => tables.fragments

/-- `insert_compound`: nothing changes where the key exists. -/
def insertCompound (table : RedbTable) (job : WriteJob) (inlineThreshold : Nat) : RedbTable :=
  table.orInsert job.key (job.record inlineThreshold)

def insertJob (tables : RedbTables) (inlineThreshold : Nat) (job : WriteJob) : RedbTables :=
  match job.item with
  | .commit _ => { tables with commits := insertCompound tables.commits job inlineThreshold }
  | .fragment _ => { tables with fragments := insertCompound tables.fragments job inlineThreshold }

def insertJobs (tables : RedbTables) (inlineThreshold : Nat) (jobs : List WriteJob) : RedbTables :=
  jobs.foldl (insertJob · inlineThreshold) tables

/-- One transaction: the trees are registered and the items inserted. -/
def transact (tables : RedbTables) (inlineThreshold : Nat) (trees : List SedimentreeId)
    (jobs : List WriteJob) : RedbTables :=
  insertJobs { tables with trees := trees.toFinset ∪ tables.trees } inlineThreshold jobs

/-- The deletions of one transaction, in the table of a kind. -/
def deleteRange (tables : RedbTables) (kind : ItemKind) (inRange : Key96 → Bool) : RedbTables :=
  match kind with
  | .commit => { tables with commits := tables.commits.deleteRange inRange }
  | .fragment => { tables with fragments := tables.fragments.deleteRange inRange }

variable {tables : RedbTables} {job : WriteJob} {threshold : Nat} {kind : ItemKind} {key : Key96}
  {value : List UInt8}

theorem get?_insertCompound (table : RedbTable) (job : WriteJob) (threshold : Nat) (key : Key96) :
    (insertCompound table job threshold).get? key =
      if key = job.key then some ((table.get? job.key).getD (job.record threshold)) else table.get? key :=
  FinMap.get?_orInsert table job.key key (job.record threshold)

theorem get?_insertJob (tables : RedbTables) (job : WriteJob) (threshold : Nat) (kind : ItemKind)
    (key : Key96) : ((tables.insertJob threshold job).table kind).get? key =
      if kind = job.item.kind ∧ key = job.key then
        some (((tables.table kind).get? key).getD (job.record threshold))
      else (tables.table kind).get? key := by
  obtain ⟨tree, item⟩ := job
  cases item with
  | commit item =>
    cases kind with
    | commit =>
      refine (get?_insertCompound tables.commits _ threshold key).trans ?_
      by_cases same : key = (WriteJob.mk tree (.commit item)).key
      · rw [if_pos same, if_pos ⟨rfl, same⟩, same]
        rfl
      · rw [if_neg same, if_neg fun both => same both.2]
        rfl
    | fragment => exact (if_neg fun both => ItemKind.noConfusion both.1).symm
  | fragment item =>
    cases kind with
    | fragment =>
      refine (get?_insertCompound tables.fragments _ threshold key).trans ?_
      by_cases same : key = (WriteJob.mk tree (.fragment item)).key
      · rw [if_pos same, if_pos ⟨rfl, same⟩, same]
        rfl
      · rw [if_neg same, if_neg fun both => same both.2]
        rfl
    | commit => exact (if_neg fun both => ItemKind.noConfusion both.1).symm

theorem get?_deleteRange (tables : RedbTables) (kind other : ItemKind) (inRange : Key96 → Bool)
    (key : Key96) : ((tables.deleteRange kind inRange).table other).get? key =
      if other = kind ∧ inRange key = true then none else (tables.table other).get? key := by
  cases kind <;> cases other
  · refine (RedbTable.get?_deleteRange tables.commits inRange key).trans ?_
    by_cases inside : inRange key = true
    · rw [if_pos inside, if_pos ⟨rfl, inside⟩]
    · rw [if_neg inside, if_neg fun both => inside both.2]
      rfl
  · exact (if_neg fun both => ItemKind.noConfusion both.1).symm
  · exact (if_neg fun both => ItemKind.noConfusion both.1).symm
  · refine (RedbTable.get?_deleteRange tables.fragments inRange key).trans ?_
    by_cases inside : inRange key = true
    · rw [if_pos inside, if_pos ⟨rfl, inside⟩]
    · rw [if_neg inside, if_neg fun both => inside both.2]
      rfl

/-- The record is one of the item, inline or not. -/
def Records (job : WriteJob) (value : List UInt8) : Prop :=
  value = encodeInline job.item.signedBytes job.item.blob.contents ∨
    value = encodeExternal job.item.signedBytes

theorem records_record (job : WriteJob) (threshold : Nat) : Records job (job.record threshold) := by
  unfold Records WriteJob.record
  split
  · exact Or.inr rfl
  · exact Or.inl rfl

/-- **Every record is the one of an item**, which stands to its record as asked for. -/
def Kept (good : WriteJob → List UInt8 → Prop) (tables : RedbTables) : Prop :=
  ∀ kind key value, (tables.table kind).get? key = some value →
    ∃ job : WriteJob, job.item.kind = kind ∧ job.key = key ∧ good job value

section Kept

variable {good other : WriteJob → List UInt8 → Prop} {jobs : List WriteJob} {trees : List SedimentreeId}

theorem kept_empty (good : WriteJob → List UInt8 → Prop) : Kept good empty := by
  intro kind key value found
  cases kind <;> cases found

variable (kept : Kept good tables)

include kept

theorem Kept.mono (weaker : ∀ job value, good job value → other job value) : Kept other tables := by
  intro kind key value found
  obtain ⟨job, isKind, isKey, isGood⟩ := kept kind key value found
  exact ⟨job, isKind, isKey, weaker job value isGood⟩

theorem Kept.insertJob (isGood : good job (job.record threshold)) :
    Kept good (tables.insertJob threshold job) := by
  intro kind key value found
  rw [get?_insertJob] at found
  split at found
  · rename_i own
    cases stored : (tables.table kind).get? key with
    | some old =>
      rw [stored, Option.getD_some] at found
      obtain rfl := Option.some.inj found
      exact kept kind key old stored
    | none =>
      rw [stored, Option.getD_none] at found
      obtain rfl := Option.some.inj found
      exact ⟨job, own.1.symm, own.2.symm, isGood⟩
  · exact kept kind key value found

theorem Kept.insertJobs (isGood : ∀ job ∈ jobs, good job (job.record threshold)) : Kept good (tables.insertJobs threshold jobs) := by
  induction jobs generalizing tables with
  | nil => exact kept
  | cons job jobs ih =>
    exact ih (kept.insertJob (isGood job mem_cons_self)) fun other member =>
      isGood other (mem_cons_of_mem _ member)

theorem Kept.transact (isGood : ∀ job ∈ jobs, good job (job.record threshold)) :
    Kept good (tables.transact threshold trees jobs) :=
  Kept.insertJobs (fun kind key value found => kept kind key value (by cases kind <;> exact found)) isGood

theorem Kept.deleteRange (kind : ItemKind) (inRange : Key96 → Bool) :
    Kept good (tables.deleteRange kind inRange) := by
  intro other key value found
  rw [get?_deleteRange] at found
  split at found
  · cases found
  · exact kept other key value found

end Kept

theorem get?_insertJobs_of_some {jobs : List WriteJob}
    (found : (tables.table kind).get? key = some value) :
    ((tables.insertJobs threshold jobs).table kind).get? key = some value := by
  induction jobs generalizing tables with
  | nil => exact found
  | cons job jobs ih =>
    refine ih ?_
    rw [get?_insertJob, found, Option.getD_some]
    split <;> rfl

theorem isSome_get?_insertJobs {jobs : List WriteJob} (member : job ∈ jobs) :
    (((tables.insertJobs threshold jobs).table job.item.kind).get? job.key).isSome := by
  induction jobs generalizing tables with
  | nil => cases member
  | cons first jobs ih =>
    show (((insertJobs (tables.insertJob threshold first) threshold jobs).table _).get? _).isSome
    rcases mem_cons.mp member with rfl | later
    · obtain ⟨value, found⟩ : ∃ value,
          ((tables.insertJob threshold job).table job.item.kind).get? job.key = some value := by
        rw [get?_insertJob, if_pos ⟨rfl, rfl⟩]
        exact ⟨_, rfl⟩
      exact Option.isSome_iff_exists.mpr ⟨value, get?_insertJobs_of_some found⟩
    · exact ih later

/-- **After a transaction** there is a record wherever there was one, and one for each of its items. -/
theorem isSome_get?_transact {jobs : List WriteJob} {trees : List SedimentreeId}
    (present : ((tables.table kind).get? key).isSome ∨
      ∃ job ∈ jobs, job.item.kind = kind ∧ job.key = key) :
    (((tables.transact threshold trees jobs).table kind).get? key).isSome := by
  rcases present with before | ⟨job, member, rfl, rfl⟩
  · obtain ⟨value, found⟩ := Option.isSome_iff_exists.mp before
    refine Option.isSome_iff_exists.mpr ⟨value, get?_insertJobs_of_some ?_⟩
    cases kind <;> exact found
  · exact isSome_get?_insertJobs member

/-! ### Reading records -/

theorem resolve_record {α : Type} [DecodeFields α] [HasBlobMeta α] {files : BlobFiles}
    (item : Storable α) {value : List UInt8}
    (records : value = encodeInline item.signedBytes item.blob.contents ∨
      value = encodeExternal item.signedBytes)
    (blobIn : value = encodeExternal item.signedBytes → files item.blobDigest = some item.blob.contents) :
    loadRecord files value = some ⟨item.verified.verified, item.blob⟩ := by
  unfold loadRecord
  rcases records with rfl | rfl
  · have short : item.signedBytes.length < 2 ^ 32 := item.short
    rw [decodeCompound_encodeInline short]
    exact decodeVerified_storable item item.blob
  · rw [decodeCompound_encodeExternal]
    have payload : item.verified.signed.tryDecodeTrustedPayload = .ok item.payload :=
      item.verified.verified.decodes
    have blob : externalBlob files item.payload = some item.blob.contents := by
      unfold externalBlob
      rw [show files (HasBlobMeta.blobMeta item.payload).digest = _ from blobIn rfl]
      exact Option.filter_some_pos (decide_eq_true item.sizeBytes_eq.symm)
    show resolveItem files (.external item.verified.signed.bytes) = _
    unfold resolveItem
    dsimp only
    rw [item.decodes]
    dsimp only
    rw [payload]
    dsimp only
    rw [blob]
    exact tryFromTrusted_eq payload item.blob

end RedbTables

end Jobs

end Subduction
