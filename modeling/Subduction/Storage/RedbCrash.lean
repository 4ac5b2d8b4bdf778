/-
**The redb storage under concurrent writers and crashes.**

Single saves go through one writer task, which writes all queued items in one transaction; batches write
their own. Both write the files of large blobs first, each of which is skipped where a file of the right
size can be seen, and the directory of its bucket where it can be seen. What can be seen is not yet kept
by a crash while another writer is about to sync it.

Main result: `acknowledged_writes_survive`.
-/

import Subduction.Lib.Interleave
import Subduction.Lib.Task
import Subduction.Storage.Redb

namespace Subduction

open RedbTables List

/-! ### Blob files -/

/-- The names under `blobs/`: the directories of the buckets, and the files. -/
inductive BlobName where
  | bucket (byte : BitVec 8)
  | digest (digest : Digest Blob)
deriving DecidableEq

/-- The bucket of a file: the first byte of its digest. -/
def bucketDir (digest : Digest Blob) : List BlobName := [.bucket (digest.bytes.extractLsb' (8 * 31) 8)]

/-- `blob_file_path`. -/
def blobFilePath (digest : Digest Blob) : List BlobName := .digest digest :: bucketDir digest

section Redb

variable [Blake3] [Ed25519] [Bijou64Codec]

/-- The operations of a writer: one on the file system, or one transaction. -/
inductive RedbOp where
  | file (op : FileOp BlobName (List UInt8))
  | transact (inlineThreshold : Nat) (trees : List SedimentreeId) (jobs : List WriteJob)

def RedbOp.Answer : RedbOp → Type
  | .file op => op.Answer
  | .transact _ _ _ => Bool

abbrev RedbTask := Prog RedbOp RedbOp.Answer

namespace RedbTask

def file (op : FileOp BlobName (List UInt8)) : RedbTask op.Answer := Prog.call (RedbOp.file op)

/-- An error of an operation is the error of the task. -/
def require : Bool → RedbTask Unit
  | true => .done ()
  | false => .fail

/-- `create_dir_all` of a bucket and the sync of `blobs/`, unless the bucket can be seen. -/
def ensureBucket (digest : Digest Blob) : RedbTask Unit := do
  let existing ← file (.stat (bucketDir digest))
  match existing with
  | some _ => pure ()
  | none =>
    let made ← file (.mkdir (bucketDir digest))
    require (MkdirResult.isOk made)
    let synced ← file (.fsyncDir [])
    require synced

/-- The temporary file, the rename and the sync of the bucket. -/
def writeFile (digest : Digest Blob) (data : List UInt8) : RedbTask Unit := do
  let written ← file (.write data)
  match written with
  | none => .fail
  | some temp =>
    let synced ← file (.sync temp)
    match synced with
    | none => .fail
    | some temp =>
      let renamed ← file (.rename temp (blobFilePath digest))
      require renamed
      let kept ← file (.fsyncDir (bucketDir digest))
      require kept

/-- `write_blob_file_sync`: a file of the right size is left alone. -/
def writeBlobFileSync (digest : Digest Blob) (data : List UInt8) : RedbTask Unit := do
  let existing ← file (.stat (blobFilePath digest))
  if fileLength existing = some data.length then pure ()
  else do
    ensureBucket digest
    writeFile digest data

/-- `stage_external_blob_sync`. -/
def stageExternalBlobSync (inlineThreshold : Nat) (job : WriteJob) : RedbTask Unit :=
  if job.isExternal inlineThreshold then writeBlobFileSync job.item.blobDigest job.item.blob.contents
  else pure ()

/-- The files of the items, then the transaction. -/
def flush (inlineThreshold : Nat) (trees : List SedimentreeId) (jobs : List WriteJob) : RedbTask Unit := do
  jobs.forM (stageExternalBlobSync inlineThreshold)
  let committed ← Prog.call (RedbOp.transact inlineThreshold trees jobs)
  require committed

/-- `flush_all`. -/
def flushAll (inlineThreshold : Nat) (jobs : List WriteJob) : RedbTask Unit :=
  flush inlineThreshold (jobs.map WriteJob.tree) jobs

/-- `flush_one`. -/
def flushOne (inlineThreshold : Nat) (job : WriteJob) : RedbTask Unit :=
  flush inlineThreshold [job.tree] [job]

/-- The items one by one; the result lists those that were written. -/
def flushEach (inlineThreshold : Nat) : List WriteJob → RedbTask (List WriteJob)
  | [] => pure []
  | job :: jobs => do
      let written ← (flushOne inlineThreshold job).attempt
      let others ← flushEach inlineThreshold jobs
      pure (if written.isSome then job :: others else others)

/-- `write_drain`: the items whose callers are told `Ok`. -/
def writeDrain (inlineThreshold : Nat) (jobs : List WriteJob) : RedbTask (List WriteJob) := do
  let written ← (flushAll inlineThreshold jobs).attempt
  match written with
  | some _ => pure jobs
  | none => flushEach inlineThreshold jobs

/-- `save_batch`: the items of the batch, whose caller is told `Ok`. -/
def saveBatch (inlineThreshold : Nat) (tree : SedimentreeId) (items : List StorableItem) :
    RedbTask (List WriteJob) := do
  flush inlineThreshold [tree] (items.map (WriteJob.mk tree))
  pure (items.map (WriteJob.mk tree))

end RedbTask

/-! ### The storage -/

/-- **What the writers share**: the file system and the tables, with a record of the items of committed
transactions (`committed`) and of those among them that were not deleted since (`live`). -/
structure RedbState where
  disk : Disk BlobName (List UInt8)
  tables : RedbTables
  committed : List WriteJob
  live : List WriteJob

/-- One operation of a writer, which may fail. -/
def RedbOp.perform : (op : RedbOp) → Bool → RedbState → op.Answer × RedbState
  | .file op, failing, state =>
    ((op.perform failing state.disk).1, { state with disk := (op.perform failing state.disk).2 })
  | .transact inlineThreshold trees jobs, failing, state =>
    if failing then (false, state)
    else (true, { state with
      tables := state.tables.transact inlineThreshold trees jobs
      committed := state.committed ++ jobs
      live := state.live ++ jobs })

/-- What is deleted in one transaction. -/
inductive Deletion where
  | single (kind : ItemKind) (tree : SedimentreeId) (item : CommitId)
  | all (kind : ItemKind) (tree : SedimentreeId)
  | sedimentree (tree : SedimentreeId)

/-- The deletion removes the records with this key from the table of the kind. -/
def Deletion.covers : Deletion → ItemKind → Key96 → Bool
  | .single kind tree item, other, key => decide (other = kind) && key.inItem tree item
  | .all kind tree, other, key => decide (other = kind) && key.inTree tree
  | .sedimentree tree, _, key => key.inTree tree

/-- `delete_loose_commit`, `delete_loose_commits` and their counterparts, and `delete_sedimentree_id`. -/
def RedbState.delete (state : RedbState) (deletion : Deletion) : RedbState where
  disk := state.disk
  tables :=
    let tables := (state.tables.deleteRange .commit (deletion.covers .commit)).deleteRange .fragment
      (deletion.covers .fragment)
    match deletion with
    | .sedimentree tree => { tables with trees := tables.trees.erase tree }
    | _ => tables
  committed := state.committed
  live := state.live.filter fun job => !deletion.covers job.item.kind job.key

/-- `WRITER_QUEUE_CAPACITY`. -/
def writerQueueCapacity : Nat := 1024

/-- **The redb storage**: its shared state, the queue of the writer task, the writers at work, and the
items whose callers were told `Ok`. -/
structure RedbStorage where
  state : RedbState
  inlineThreshold : Nat
  queue : List WriteJob
  writer : Option (RedbTask (List WriteJob))
  batches : List (RedbTask (List WriteJob))
  acked : List WriteJob

inductive RedbEvent where
  /-- `save_loose_commit` or `save_fragment` queues its item. -/
  | save (job : WriteJob)
  /-- The writer task takes the first item and as many more as are queued. -/
  | drain (more : Nat)
  /-- `save_batch` starts. -/
  | batch (tree : SedimentreeId) (items : List StorableItem)
  /-- The writer task takes its next operation, or acknowledges what it has written. -/
  | writer (failing : Bool)
  /-- A batch takes its next operation, or is acknowledged. -/
  | advance (index : Nat) (failing : Bool)
  | delete (deletion : Deletion)
  /-- The process ends, and the storage is opened again. -/
  | restart (inlineThreshold : Nat)
  /-- The machine crashes, and the storage is opened again. -/
  | crash (broken : Crash BlobName (List UInt8)) (inlineThreshold : Nat)

namespace RedbStorage

/-- `RedbStorage::with_inline_threshold` on an empty directory. -/
def new (inlineThreshold : Nat) : RedbStorage :=
  ⟨⟨.empty, .empty, [], []⟩, inlineThreshold, [], none, [], []⟩

section

variable (store : RedbStorage)

/-- Opened again: nothing is left of the process. -/
def reopen (disk : Disk BlobName (List UInt8)) (inlineThreshold : Nat) : RedbStorage :=
  ⟨{ store.state with disk := disk }, inlineThreshold, [], none, [], store.acked⟩

/-- The writer task goes on, and acknowledges its items when it is done. -/
def stepWriter (failing : Bool) : RedbStorage :=
  match store.writer with
  | none => store
  | some (.done jobs) => { store with writer := none, acked := store.acked ++ jobs }
  | some .fail => { store with writer := none }
  | some task =>
    { store with
      writer := some (task.advance RedbOp.perform failing store.state).1
      state := (task.advance RedbOp.perform failing store.state).2 }

/-- A batch goes on, and is acknowledged when it is done. -/
def stepBatch (index : Nat) (failing : Bool) : RedbStorage :=
  match store.batches[index]? with
  | some (.done jobs) =>
    { store with batches := store.batches.eraseIdx index, acked := store.acked ++ jobs }
  | some .fail => { store with batches := store.batches.eraseIdx index }
  | _ =>
    { store with
      batches := (Prog.advanceAt RedbOp.perform index failing store.state store.batches).1
      state := (Prog.advanceAt RedbOp.perform index failing store.state store.batches).2 }

/-- **One step of the storage.** -/
def step : RedbEvent → RedbStorage
  | .save job =>
    if store.queue.length < writerQueueCapacity then { store with queue := store.queue ++ [job] } else store
  | .drain more =>
    match store.writer, store.queue with
    | none, first :: rest =>
      { store with
        writer := some (.writeDrain store.inlineThreshold (first :: rest.take more))
        queue := rest.drop more }
    | _, _ => store
  | .batch tree items =>
    { store with batches := store.batches ++ [.saveBatch store.inlineThreshold tree items] }
  | .writer failing => store.stepWriter failing
  | .advance index failing => store.stepBatch index failing
  | .delete deletion => { store with state := store.state.delete deletion }
  | .restart inlineThreshold => store.reopen store.state.disk inlineThreshold
  | .crash broken inlineThreshold => store.reopen (store.state.disk.crash broken) inlineThreshold

/-- `read_blob_file_sync`. -/
def readBlobFileSync : BlobFiles := fun digest =>
  match store.state.disk.at? (blobFilePath digest) with
  | some (.file data _) => some data
  | _ => none

/-- `load_loose_commits`. -/
def loadLooseCommits (tree : SedimentreeId) : List (TrustedMeta LooseCommit) :=
  store.state.tables.commits.loadItems store.readBlobFileSync tree

/-- `load_fragments`. -/
def loadFragments (tree : SedimentreeId) : List (TrustedMeta Fragment) :=
  store.state.tables.fragments.loadItems store.readBlobFileSync tree

/-- The load of the tree returns the item with its blob. -/
def Returns (job : WriteJob) : Prop :=
  match job.item with
  | .commit item => ∃ loaded ∈ store.loadLooseCommits job.tree,
      loaded.payload = item.payload ∧ loaded.blob = item.blob
  | .fragment item => ∃ loaded ∈ store.loadFragments job.tree,
      loaded.payload = item.payload ∧ loaded.blob = item.blob

end

/-- **Acknowledged writes have survived**: every external record has its blob file with the bytes that
were saved, acknowledged items were committed, and committed ones are returned until they are deleted. -/
structure Survived (family : StorableItem → Prop) (store : RedbStorage) : Prop where
  external : ∀ kind key signed, (store.state.tables.table kind).get? key = some (encodeExternal signed) →
    ∃ job : WriteJob, family job.item ∧ job.item.kind = kind ∧ job.key = key ∧
      job.item.signedBytes = signed ∧
      store.readBlobFileSync job.item.blobDigest = some job.item.blob.contents
  committed : ∀ job ∈ store.acked, job ∈ store.state.committed
  returned : ∀ job ∈ store.state.live, store.Returns job

end RedbStorage

/-! ### What the writers keep to -/

section Rules

variable (family : StorableItem → Prop)

/-- Buckets are directories, and a file has the synced blob of its digest. -/
def BlobFits : List BlobName → DirEntry (List UInt8) → Prop
  | [.bucket _], entry => entry = .dir
  | [.digest digest, .bucket _], entry => ∃ item, family item ∧ item.blobDigest = digest ∧
      entry = .file item.blob.contents true
  | _, _ => False

/-- A record of an item whose blob, where it is not in the record, no crash can remove. -/
def Backed (disk : Disk BlobName (List UInt8)) (job : WriteJob) (value : List UInt8) : Prop :=
  family job.item ∧ RedbTables.Records job value ∧
    (value = encodeExternal job.item.signedBytes → disk.Firm (blobFilePath job.item.blobDigest))

/-- **A valid state.** -/
structure RedbState.Valid (state : RedbState) : Prop where
  fitting : state.disk.Fitting (BlobFits family)
  backed : state.tables.Kept (Backed family state.disk)
  live : ∀ job ∈ state.live, family job.item ∧
    ((state.tables.table job.item.kind).get? job.key).isSome

/-- What a writer finds in place no crash can remove. -/
def RedbOp.Settled : RedbOp → Bool → RedbState → Prop
  | .file op, failing, state => ∀ path ∈ op.finds failing state.disk, state.disk.Firm path
  | .transact _ _ _, _, _ => True

instance : ∀ op failing state, Decidable (RedbOp.Settled op failing state)
  | .file op, failing, state =>
    inferInstanceAs (Decidable (∀ path ∈ op.finds failing state.disk, state.disk.Firm path))
  | .transact _ _ _, _, _ => isTrue trivial

def redbRules : Rules RedbOp RedbState where
  valid := RedbState.Valid family
  grows state later := Disk.Grows state.disk later.disk ∧ ∀ job ∈ state.committed, job ∈ later.committed
  meets := RedbOp.Settled
  refl state := ⟨Disk.Grows.refl state.disk, fun _ => id⟩
  trans first second := ⟨first.1.trans second.1, fun job member => second.2 job (first.2 job member)⟩

end Rules

/-- **The condition on a step**: the operation that is taken finds in place only what no crash can
remove. -/
def RedbStorage.Settled (store : RedbStorage) : RedbEvent → Prop
  | .writer failing => ∀ task ∈ store.writer, task.Meets RedbOp.Settled failing store.state
  | .advance index failing =>
    Prog.MeetsAt RedbOp.Settled index failing store.state store.batches
  | _ => True

instance (store : RedbStorage) : ∀ event, Decidable (store.Settled event)
  | .writer failing =>
    inferInstanceAs (Decidable (∀ task ∈ store.writer, task.Meets RedbOp.Settled failing store.state))
  | .advance index failing =>
    inferInstanceAs (Decidable (Prog.MeetsAt RedbOp.Settled index failing store.state store.batches))
  | .save _ => isTrue trivial
  | .drain _ => isTrue trivial
  | .batch _ _ => isTrue trivial
  | .delete _ => isTrue trivial
  | .restart _ => isTrue trivial
  | .crash _ _ => isTrue trivial

/-- The items that are handed over belong to the family. -/
def RedbEvent.Known (family : StorableItem → Prop) : RedbEvent → Prop
  | .save job => family job.item
  | .batch _ items => ∀ item ∈ items, family item
  | _ => True

/-! ### One writer -/

namespace RedbTask

/-- The task keeps the rules, and is done only where the postcondition holds. -/
abbrev Keeps (family : StorableItem → Prop) {α : Type} (task : RedbTask α)
    (post : α → RedbState → Prop) (state : RedbState) : Prop :=
  task.Safe RedbOp.perform (redbRules family) post state

/-- What a writer acknowledges was committed. -/
def Committing (family : StorableItem → Prop) (state : RedbState) (task : RedbTask (List WriteJob)) : Prop :=
  task.Keeps family (fun written later => ∀ job ∈ written, job ∈ later.committed) state

variable {family : StorableItem → Prop} {state : RedbState} {digest : Digest Blob}

theorem safe_file {op : FileOp BlobName (List UInt8)} {post : op.Answer → RedbState → Prop}
    (puts : op.Puts (BlobFits family))
    (holds : ∀ now failing, RedbState.Valid family now → (redbRules family).grows state now →
      RedbOp.Settled (.file op) failing now → ∀ later : RedbState,
        Disk.Grows (op.perform failing now.disk).2 later.disk →
          post (op.perform failing now.disk).1 later) :
    (file op).Keeps family post state := by
  intro now failing valid grows settled
  have growth := op.grows failing now.disk
  refine ⟨⟨FileOp.fitting valid.fitting puts, ?_, valid.live⟩, ⟨growth, fun _ => id⟩, ?_⟩
  · exact valid.backed.mono fun job value backed =>
      ⟨backed.1, backed.2.1, fun external => (backed.2.2 external).grows growth⟩
  · exact fun later _ growsLater => holds now failing valid grows settled later growsLater.1

theorem safe_require {okay : Bool} {post : Unit → RedbState → Prop}
    (holds : okay = true → ∀ later : RedbState, (redbRules family).grows state later → post () later) :
    (require okay).Keeps family post state := by
  cases okay with
  | true => exact fun later _ grows => holds rfl later grows
  | false => trivial

theorem safe_stat (path : List BlobName) :
    (file (.stat path)).Keeps family
      (fun existing later => ∀ entry, existing = some entry → later.disk.Firm path) state := by
  refine safe_file trivial fun now failing _ _ settled later grows entry found => ?_
  have firm : now.disk.Firm path := settled path (FileOp.finds_stat found)
  exact firm.grows grows

theorem safe_fsyncDir {name : BlobName} {dir : List BlobName}
    (seen : (state.disk.at? (name :: dir)).isSome) :
    (file (.fsyncDir dir)).Keeps family
      (fun synced later => synced = true → later.disk.Anchored (name :: dir)) state := by
  refine safe_file trivial fun now failing _ growsNow _ later grows synced => ?_
  exact grows.anchored _ (FileOp.anchored_of_fsyncDir (growsNow.1.stays _ seen) synced)

theorem safe_ensureBucket (digest : Digest Blob) (valid : RedbState.Valid family state) :
    (ensureBucket digest).Keeps family
      (fun _ later => later.disk.Firm (bucketDir digest)) state := by
  refine Prog.Safe.bind (safe_stat (bucketDir digest)) valid fun existing now validNow _ firm => ?_
  cases existing with
  | some entry => exact fun later _ grows => (firm entry rfl).grows grows.1
  | none =>
    have made : (file (.mkdir (bucketDir digest))).Keeps family
        (fun made later => MkdirResult.isOk made = true → (later.disk.at? (bucketDir digest)).isSome)
        now :=
      safe_file rfl fun before failing _ _ _ later grows isOk =>
        grows.stays _ (FileOp.isSome_of_mkdir (MkdirResult.isOk_iff.mp isOk))
    refine made.bind validNow fun made second validSecond _ seen => ?_
    refine (safe_require fun isOk third grows => grows.1.stays _ (seen isOk)).bind validSecond
      fun _ third validThird _ (seen : (third.disk.at? (bucketDir digest)).isSome) => ?_
    refine (safe_fsyncDir seen).bind validThird fun synced fourth _ _ anchored => ?_
    exact safe_require fun isTrue later grows => ⟨grows.1.anchored _ (anchored isTrue), trivial⟩

theorem safe_writeFile {item : StorableItem} (known : family item) (valid : RedbState.Valid family state)
    (bucket : state.disk.Firm (bucketDir item.blobDigest)) :
    (writeFile item.blobDigest item.blob.contents).Keeps family
      (fun _ later => later.disk.Firm (blobFilePath item.blobDigest)) state := by
  have written : (file (.write item.blob.contents)).Keeps family
      (fun written _ => ∀ temp, written = some temp → temp.data = item.blob.contents) state := by
    refine safe_file trivial fun now failing _ _ _ later _ temp isTemp => ?_
    cases failing with
    | true => cases isTemp
    | false =>
      obtain rfl := Option.some.inj isTemp
      rfl
  refine written.bind valid fun written first validFirst growsFirst isData => ?_
  cases written with
  | none => trivial
  | some temp =>
    have synced : (file (.sync temp)).Keeps family
        (fun synced _ => ∀ copy, synced = some copy → copy = ⟨item.blob.contents, true⟩) first := by
      refine safe_file trivial fun now failing _ _ _ later _ copy isCopy => ?_
      cases failing with
      | true => cases isCopy
      | false =>
        obtain rfl := Option.some.inj isCopy
        rw [isData temp rfl]
    refine synced.bind validFirst fun synced second validSecond growsSecond isCopy => ?_
    cases synced with
    | none => trivial
    | some copy =>
      obtain rfl := isCopy copy rfl
      have renamed : (file (.rename ⟨item.blob.contents, true⟩ (blobFilePath item.blobDigest))).Keeps
          family (fun renamed later => renamed = true →
            (later.disk.at? (blobFilePath item.blobDigest)).isSome) second :=
        safe_file ⟨item, known, rfl, rfl⟩ fun now failing _ _ _ later grows isTrue =>
          grows.stays _ (FileOp.isSome_of_rename isTrue)
      refine renamed.bind validSecond fun renamed third validThird growsThird seen => ?_
      refine (safe_require fun isTrue fourth grows => grows.1.stays _ (seen isTrue)).bind validThird
        fun _ fourth validFourth growsFourth
          (seen : (fourth.disk.at? (blobFilePath item.blobDigest)).isSome) => ?_
      refine (safe_fsyncDir seen).bind validFourth fun kept fifth _ growsFifth anchored => ?_
      refine safe_require fun isTrue later grows => ?_
      have growth := ((growsFirst.1.trans growsSecond.1).trans growsThird.1).trans growsFourth.1
      exact ⟨grows.1.anchored _ (anchored isTrue),
        bucket.grows ((growth.trans growsFifth.1).trans grows.1)⟩

theorem safe_writeBlobFileSync {item : StorableItem} (known : family item)
    (valid : RedbState.Valid family state) :
    (writeBlobFileSync item.blobDigest item.blob.contents).Keeps family
      (fun _ later => later.disk.Firm (blobFilePath item.blobDigest)) state := by
  refine Prog.Safe.bind (safe_stat (blobFilePath item.blobDigest)) valid fun existing now validNow _ firm => ?_
  show (if fileLength existing = some item.blob.contents.length then _ else _ : RedbTask Unit).Safe _ _ _ now
  split
  · rename_i sameLength
    cases existing with
    | none => cases sameLength
    | some entry => exact fun later _ grows => (firm entry rfl).grows grows.1
  · refine (safe_ensureBucket item.blobDigest validNow).bind validNow fun _ later validLater _ bucket => ?_
    exact safe_writeFile known validLater bucket

theorem safe_stageExternalBlobSync {job : WriteJob} (known : family job.item) (threshold : Nat)
    (valid : RedbState.Valid family state) :
    (stageExternalBlobSync threshold job).Keeps family
      (fun _ later => job.isExternal threshold = true → later.disk.Firm (blobFilePath job.item.blobDigest))
      state := by
  unfold stageExternalBlobSync
  split
  · exact (safe_writeBlobFileSync known valid).weaken fun _ later _ firm _ => firm
  · rename_i inline
    exact fun later _ _ external => absurd external inline

theorem backed_record {job : WriteJob} (known : family job.item) {threshold : Nat}
    (firm : job.isExternal threshold = true → state.disk.Firm (blobFilePath job.item.blobDigest)) :
    Backed family state.disk job (job.record threshold) := by
  refine ⟨known, records_record job threshold, fun external => firm ?_⟩
  by_contra inline
  unfold WriteJob.record at external
  rw [if_neg inline] at external
  have tags := congrArg List.head? external
  simp [encodeInline, encodeExternal, tagInline, tagExternal] at tags

section

variable {jobs : List WriteJob} (known : ∀ job ∈ jobs, family job.item) (threshold : Nat)

include known threshold

/-- **A transaction whose files are in place** keeps the rules and is on record. -/
theorem safe_flush (trees : List SedimentreeId) (valid : RedbState.Valid family state) :
    (flush threshold trees jobs).Keeps family
      (fun _ later => ∀ job ∈ jobs, job ∈ later.committed) state := by
  have staged : (jobs.forM (stageExternalBlobSync threshold)).Keeps family
      (fun _ later => ∀ job ∈ jobs, job.isExternal threshold = true →
        later.disk.Firm (blobFilePath job.item.blobDigest)) state :=
    Prog.Safe.forM (fun job before later grows firm external => (firm external).grows grows.1) valid
      fun job member now validNow _ => safe_stageExternalBlobSync (known job member) threshold validNow
  refine staged.bind valid fun _ now validNow _ inPlace => ?_
  have committed : Keeps family (Prog.call (RedbOp.transact threshold trees jobs) : RedbTask Bool)
      (fun okay later => okay = true → ∀ job ∈ jobs, job ∈ later.committed) now := by
    intro before failing validBefore growsBefore _
    cases failing with
    | true => exact ⟨validBefore, (redbRules family).refl before, fun _ _ _ isTrue => by cases isTrue⟩
    | false =>
      refine ⟨⟨validBefore.fitting, ?_, ?_⟩, ⟨Disk.Grows.refl _, ?_⟩, ?_⟩
      · exact validBefore.backed.transact fun job member => backed_record (known job member)
          fun external => (inPlace job member external).grows growsBefore.1
      · intro job member
        rcases mem_append.mp member with old | new
        · exact ⟨(validBefore.live job old).1,
            isSome_get?_transact (Or.inl (validBefore.live job old).2)⟩
        · exact ⟨known job new, isSome_get?_transact (Or.inr ⟨job, new, rfl, rfl⟩)⟩
      · exact fun job member => mem_append_left _ member
      · intro later _ growsLater _ job member
        exact growsLater.2 job (mem_append_right _ member)
  refine committed.bind validNow fun okay later _ _ onRecord => ?_
  exact safe_require fun isTrue last grows job member => grows.2 job (onRecord isTrue job member)

theorem safe_flushEach (valid : RedbState.Valid family state) :
    Committing family state (flushEach threshold jobs) := by
  induction jobs generalizing state with
  | nil =>
    intro later _ _ job member
    cases member
  | cons first jobs ih =>
    have alone : ∀ job ∈ [first], family job.item := by
      intro job member
      rw [mem_singleton.mp member]
      exact known first mem_cons_self
    refine ((safe_flush alone threshold [first.tree] valid).attempt).bind valid fun written now validNow _ onRecord => ?_
    have others := ih (fun job member => known job (mem_cons_of_mem _ member)) validNow
    refine (others.remember ((redbRules family).refl now)).bind validNow
      fun more later validLater _ both last _ growsLast job member => ?_
    cases written with
    | none => exact growsLast.2 job (both.2 job member)
    | some done =>
      rcases mem_cons.mp member with rfl | older
      · exact growsLast.2 job (both.1.2 job (onRecord done rfl job (mem_singleton.mpr rfl)))
      · exact growsLast.2 job (both.2 job older)

theorem safe_writeDrain (valid : RedbState.Valid family state) :
    Committing family state (writeDrain threshold jobs) := by
  refine ((safe_flush known threshold (jobs.map WriteJob.tree) valid).attempt).bind valid
    fun written now validNow _ onRecord => ?_
  cases written with
  | some done => exact fun later _ grows job member => grows.2 job (onRecord done rfl job member)
  | none => exact safe_flushEach known threshold validNow

end

theorem safe_saveBatch {items : List StorableItem} (known : ∀ item ∈ items, family item) (threshold : Nat)
    (tree : SedimentreeId) (valid : RedbState.Valid family state) :
    Committing family state (saveBatch threshold tree items) := by
  have each : ∀ job ∈ items.map (WriteJob.mk tree), family job.item := by
    intro job member
    obtain ⟨item, listed, rfl⟩ := mem_map.mp member
    exact known item listed
  refine (safe_flush each threshold [tree] valid).bind valid fun _ now _ _ onRecord later _ grows job member => ?_
  exact grows.2 job (onRecord job member)

end RedbTask

/-! ### Any number of writers -/

section Runs

variable {family : StorableItem → Prop} {state : RedbState} {store : RedbStorage}

theorem RedbState.Valid.delete (valid : RedbState.Valid family state) (deletion : Deletion) :
    RedbState.Valid family (state.delete deletion) := by
  have same (kind : ItemKind) (key : Key96) : ((state.delete deletion).tables.table kind).get? key =
      if deletion.covers kind key = true then none else (state.tables.table kind).get? key := by
    have erased : (((state.tables.deleteRange .commit (deletion.covers .commit)).deleteRange .fragment
        (deletion.covers .fragment)).table kind).get? key =
          if deletion.covers kind key = true then none else (state.tables.table kind).get? key := by
      rw [RedbTables.get?_deleteRange, RedbTables.get?_deleteRange]
      cases kind <;> simp
    rw [← erased]
    cases deletion <;> cases kind <;> rfl
  refine ⟨valid.fitting, fun kind key value found => ?_, fun job member => ?_⟩
  · rw [same] at found
    split at found
    · cases found
    · exact valid.backed kind key value found
  · obtain ⟨old, spared⟩ := mem_filter.mp member
    refine ⟨(valid.live job old).1, ?_⟩
    rw [same, if_neg (by simpa using spared)]
    exact (valid.live job old).2

theorem not_blobFits_unsynced (path : List BlobName) (data : List UInt8) :
    ¬ BlobFits family path (.file data false) := by
  unfold BlobFits
  split <;> simp

theorem RedbState.Valid.crash (valid : RedbState.Valid family state) (broken : Crash BlobName (List UInt8)) :
    RedbState.Valid family { state with disk := state.disk.crash broken } where
  fitting := valid.fitting.crash not_blobFits_unsynced broken
  backed := valid.backed.mono fun _ _ backed =>
    ⟨backed.1, backed.2.1, fun external => (backed.2.2 external).crash broken⟩
  live := valid.live

/-- **The invariant of the storage.** -/
structure RedbStorage.Inv (family : StorableItem → Prop) (store : RedbStorage) : Prop where
  valid : RedbState.Valid family store.state
  queue : ∀ job ∈ store.queue, family job.item
  writer : ∀ task, store.writer = some task → RedbTask.Committing family store.state task
  batches : ∀ task ∈ store.batches, RedbTask.Committing family store.state task
  acked : ∀ job ∈ store.acked, job ∈ store.state.committed

namespace RedbStorage

theorem inv_new (family : StorableItem → Prop) (threshold : Nat) : Inv family (new threshold) where
  valid :=
    ⟨fun _ _ found => (by cases found), kept_empty _, fun _ member => (by cases member)⟩
  queue := fun _ member => (by cases member)
  writer := fun _ found => (by cases found)
  batches := fun _ member => (by cases member)
  acked := fun _ member => (by cases member)

theorem Inv.stepWriter (inv : Inv family store) {failing : Bool}
    (settled : store.Settled (.writer failing)) : Inv family (store.stepWriter failing) := by
  unfold RedbStorage.stepWriter
  cases atWork : store.writer with
  | none => exact inv
  | some task =>
    have committing := inv.writer task atWork
    cases task with
    | fail => exact { inv with writer := fun _ found => (by cases found) }
    | done jobs =>
      refine { inv with writer := fun _ found => (by cases found), acked := fun job member => ?_ }
      rcases mem_append.mp member with old | new
      · exact inv.acked job old
      · exact committing store.state inv.valid ((redbRules family).refl _) job new
    | ask request next =>
      obtain ⟨valid, grows, stays⟩ := committing.advance inv.valid (settled _ atWork)
      refine ⟨valid, inv.queue, fun task found => ?_, fun task member => ?_, fun job member => ?_⟩
      · obtain rfl := Option.some.inj found
        exact stays
      · exact (inv.batches task member).grow grows
      · exact grows.2 job (inv.acked job member)

theorem Inv.stepBatch (inv : Inv family store) {index : Nat} {failing : Bool}
    (settled : store.Settled (.advance index failing)) : Inv family (store.stepBatch index failing) := by
  obtain ⟨valid, grows, safe⟩ := Prog.safe_advanceAt inv.batches inv.valid settled
  have goesOn : Inv family { store with
      batches := (Prog.advanceAt RedbOp.perform index failing store.state store.batches).1
      state := (Prog.advanceAt RedbOp.perform index failing store.state store.batches).2 } :=
    ⟨valid, inv.queue, fun task found => (inv.writer task found).grow grows, safe,
      fun job member => grows.2 job (inv.acked job member)⟩
  have erased (acked : List WriteJob) (told : ∀ job ∈ acked, job ∈ store.state.committed) :
      Inv family { store with batches := store.batches.eraseIdx index, acked := acked } :=
    { inv with
      batches := fun task member => inv.batches task (mem_of_mem_eraseIdx member)
      acked := told }
  unfold RedbStorage.stepBatch
  split
  · rename_i jobs found
    refine erased _ fun job member => ?_
    rcases mem_append.mp member with old | new
    · exact inv.acked job old
    · exact inv.batches _ (mem_of_getElem? found) store.state inv.valid ((redbRules family).refl _) job new
  · exact erased _ inv.acked
  · exact goesOn

theorem Inv.reopen (inv : Inv family store) {disk : Disk BlobName (List UInt8)}
    (valid : RedbState.Valid family { store.state with disk := disk }) (threshold : Nat) :
    Inv family (store.reopen disk threshold) where
  valid := valid
  queue := fun _ member => (by cases member)
  writer := fun _ found => (by cases found)
  batches := fun _ member => (by cases member)
  acked := inv.acked

theorem Inv.step (inv : Inv family store) {event : RedbEvent} (known : event.Known family)
    (settled : store.Settled event) : Inv family (store.step event) := by
  cases event with
  | save job =>
    unfold RedbStorage.step
    dsimp only
    split
    · refine { inv with queue := fun other member => ?_ }
      rcases mem_append.mp member with old | new
      · exact inv.queue other old
      · rw [mem_singleton.mp new]
        exact known
    · exact inv
  | drain more =>
    unfold RedbStorage.step
    dsimp only
    split
    · rename_i first rest idle queued
      have inQueue : ∀ job ∈ first :: rest, family job.item := fun job member =>
        inv.queue job (queued ▸ member)
      refine { inv with queue := fun job member => ?_, writer := fun task found => ?_ }
      · exact inQueue job (mem_cons_of_mem _ (mem_of_mem_drop member))
      · obtain rfl := Option.some.inj found
        refine RedbTask.safe_writeDrain (fun job member => inQueue job ?_) store.inlineThreshold inv.valid
        rcases mem_cons.mp member with rfl | later
        · exact mem_cons_self
        · exact mem_cons_of_mem _ (mem_of_mem_take later)
    · exact inv
  | batch tree items =>
    refine { inv with batches := fun task member => ?_ }
    rcases mem_append.mp member with old | new
    · exact inv.batches task old
    · rw [mem_singleton.mp new]
      exact RedbTask.safe_saveBatch known store.inlineThreshold tree inv.valid
  | writer failing => exact inv.stepWriter settled
  | advance index failing => exact inv.stepBatch settled
  | delete deletion =>
    have grows : (redbRules family).grows store.state (store.state.delete deletion) :=
      ⟨Disk.Grows.refl _, fun _ => id⟩
    exact ⟨inv.valid.delete deletion, inv.queue, fun task found => (inv.writer task found).grow grows,
      fun task member => (inv.batches task member).grow grows, inv.acked⟩
  | restart threshold => exact inv.reopen inv.valid threshold
  | crash broken threshold => exact inv.reopen (inv.valid.crash broken) threshold

/-! ### What a load returns -/

theorem readBlobFileSync_eq (collisionless : Collisionless family) (valid : RedbState.Valid family store.state)
    {item : StorableItem} (known : family item) (firm : store.state.disk.Firm (blobFilePath item.blobDigest)) :
    store.readBlobFileSync item.blobDigest = some item.blob.contents := by
  obtain ⟨entry, found⟩ := Option.isSome_iff_exists.mp firm.isSome_at?
  obtain ⟨other, isKnown, sameDigest, rfl⟩ := valid.fitting.at? found
  unfold RedbStorage.readBlobFileSync
  rw [found, collisionless.blobs other item isKnown known sameDigest]

theorem same_of_key (collisionless : Collisionless family) {job other : WriteJob} (known : family job.item)
    (isKnown : family other.item) (sameKind : other.item.kind = job.item.kind) (sameKey : other.key = job.key) :
    other.item.SamePayload job.item ∧ other.item.blob = job.item.blob := by
  have payloads := collisionless.payloads other.item job.item isKnown known sameKind
    (congrArg Key96.digest sameKey)
  exact ⟨payloads, collisionless.blobs _ _ isKnown known payloads.blobDigest_eq⟩

theorem Inv.survived (inv : Inv family store) (collisionless : Collisionless family) :
    Survived family store := by
  have blobIn {job : WriteJob} {value : List UInt8} (backed : Backed family store.state.disk job value)
      (external : value = encodeExternal job.item.signedBytes) :
      store.readBlobFileSync job.item.blobDigest = some job.item.blob.contents :=
    readBlobFileSync_eq collisionless inv.valid backed.1 (backed.2.2 external)
  refine ⟨fun kind key signed found => ?_, inv.acked, fun job member => ?_⟩
  · obtain ⟨job, isKind, isKey, backed⟩ := inv.valid.backed kind key _ found
    rcases backed.2.1 with inline | external
    · have tags := congrArg List.head? inline
      simp [encodeInline, encodeExternal, tagInline, tagExternal] at tags
    · refine ⟨job, backed.1, isKind, isKey, ?_, blobIn backed external⟩
      exact (List.cons.inj external).2.symm
  · obtain ⟨known, present⟩ := inv.valid.live job member
    obtain ⟨value, found⟩ := Option.isSome_iff_exists.mp present
    obtain ⟨other, isKind, isKey, backed⟩ := inv.valid.backed _ _ value found
    obtain ⟨samePayload, sameBlob⟩ := same_of_key collisionless known backed.1 isKind isKey
    have inTree : job.key.tree = job.tree := rfl
    have read := blobIn backed
    obtain ⟨tree, item⟩ := job
    obtain ⟨otherTree, otherItem⟩ := other
    cases item with
    | commit item =>
      cases otherItem with
      | fragment _ => cases samePayload
      | commit otherItem =>
        refine ⟨⟨otherItem.verified.verified, otherItem.blob⟩, ?_, samePayload, sameBlob⟩
        exact RedbTable.mem_loadItems.mpr ⟨_, value, inTree, found,
          resolve_record otherItem backed.2.1 read⟩
    | fragment item =>
      cases otherItem with
      | commit _ => cases samePayload
      | fragment otherItem =>
        refine ⟨⟨otherItem.verified.verified, otherItem.blob⟩, ?_, samePayload, sameBlob⟩
        exact RedbTable.mem_loadItems.mpr ⟨_, value, inTree, found,
          resolve_record otherItem backed.2.1 read⟩

/-- **Acknowledged writes survive crashes**, in every run in which what a writer finds in place cannot be
removed by a crash: for any writers at once, failing operations, deletions, crashes and reopening. -/
theorem acknowledged_writes_survive {family : StorableItem → Prop} (collisionless : Collisionless family)
    (threshold : Nat) (events : List RedbEvent) (known : ∀ event ∈ events, event.Known family)
    (settled : Along step Settled (new threshold) events) :
    Survived family (events.foldl step (new threshold)) := by
  refine Inv.survived ?_ collisionless
  exact (settled.and_mem known).keeps (fun store event inv meets => inv.step meets.2 meets.1)
    (inv_new family threshold)

end RedbStorage

end Runs

end Redb

/-! ### Two items with one blob -/

def commitWithBlob [Blake3] (parent : CommitId) : LooseCommit :=
  ⟨⟨1⟩, ⟨7⟩, {parent}, BlobMeta.new ⟨[1, 2]⟩⟩

attribute [local instance] eightBytes lastBytes shownKeys

/-- The first of two commits with the same blob. -/
def firstWithBlob : Storable LooseCommit :=
  ⟨⟨⟨.sealPayload (signerOf 1) (commitWithBlob ⟨5⟩), commitWithBlob ⟨5⟩, by decide +kernel⟩, ⟨[1, 2]⟩, rfl⟩,
    by decide +kernel, by decide +kernel⟩

def secondWithBlob : Storable LooseCommit :=
  ⟨⟨⟨.sealPayload (signerOf 1) (commitWithBlob ⟨6⟩), commitWithBlob ⟨6⟩, by decide +kernel⟩, ⟨[1, 2]⟩, rfl⟩,
    by decide +kernel, by decide +kernel⟩

def isWithBlob : StorableItem → Prop :=
  fun item => item = .commit firstWithBlob ∨ item = .commit secondWithBlob

theorem collisionless_isWithBlob : Collisionless isWithBlob := by
  constructor
  · rintro first second (rfl | rfl) (rfl | rfl) _ same
    · exact .refl _
    · exact absurd same (by decide +kernel)
    · exact absurd same (by decide +kernel)
    · exact .refl _
  · rintro first second (rfl | rfl) (rfl | rfl) _ <;> rfl

/-- A crash that brings back the oldest entry of every link. -/
def bareCrash : Crash BlobName (List UInt8) := ⟨fun _ => 0, fun _ => []⟩

/-- The batch is done before the single save begins; the machine crashes, and the storage is opened with
another threshold. -/
def separateWrites : List RedbEvent :=
  .batch ⟨1⟩ [.commit firstWithBlob] :: List.replicate 10 (.advance 0 false) ++
    .save ⟨⟨1⟩, .commit secondWithBlob⟩ :: .drain 0 :: List.replicate 3 (.writer false) ++
    [.crash bareCrash 100]

theorem settled_separateWrites :
    Along RedbStorage.step RedbStorage.Settled (RedbStorage.new 0) separateWrites := by
  decide +kernel

theorem acknowledged_writes_survive_separate :
    let store := separateWrites.foldl RedbStorage.step (RedbStorage.new 0)
    store.acked.length = 2 ∧ store.state.live.length = 2 ∧ (store.loadLooseCommits ⟨1⟩).length = 2 ∧
      RedbStorage.Survived isWithBlob store := by
  refine ⟨by decide +kernel, by decide +kernel, by decide +kernel, ?_⟩
  refine RedbStorage.acknowledged_writes_survive collisionless_isWithBlob 0 separateWrites ?_
    settled_separateWrites
  intro event member
  simp only [separateWrites, List.cons_append, List.mem_cons, List.mem_append, List.mem_replicate,
    List.not_mem_nil, or_false] at member
  rcases member with rfl | (⟨_, rfl⟩ | rfl | rfl | ⟨_, rfl⟩) | rfl
  · intro item listed
    exact Or.inl (List.mem_singleton.mp listed)
  · trivial
  · exact Or.inr rfl
  · trivial
  · trivial
  · trivial

/-- A batch has renamed its file and not yet synced the bucket; a single save of an item with the same
blob skips the file, commits and is acknowledged; then the machine crashes. -/
def overlappingWrites : List RedbEvent :=
  .batch ⟨1⟩ [.commit firstWithBlob] :: List.replicate 7 (.advance 0 false) ++
    .save ⟨⟨1⟩, .commit secondWithBlob⟩ :: .drain 0 :: List.replicate 3 (.writer false) ++
    [.crash bareCrash 0]

/-- **An acknowledged item is lost**: its record points to a blob file that is not there. -/
theorem acknowledged_write_lost :
    let store := overlappingWrites.foldl RedbStorage.step (RedbStorage.new 0)
    store.acked.map WriteJob.key = [(⟨⟨1⟩, .commit secondWithBlob⟩ : WriteJob).key] ∧
      store.state.live.map WriteJob.key = [(⟨⟨1⟩, .commit secondWithBlob⟩ : WriteJob).key] ∧
      store.state.tables.commits.get? (⟨⟨1⟩, .commit secondWithBlob⟩ : WriteJob).key =
        some (encodeExternal secondWithBlob.signedBytes) ∧
      store.readBlobFileSync secondWithBlob.blobDigest = none ∧
      (store.loadLooseCommits ⟨1⟩).length = 0 := by
  decide +kernel

end Subduction
