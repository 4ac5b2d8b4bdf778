/-
**Group commit.**

Single saves wait in a queue. The writer task takes what is queued, stages the files of the large blobs
and writes all items in one transaction. When anything of this fails, it writes them one by one. A file is
staged or not here; the operations behind it are those of `RedbCrash`.

Main result: `GroupWriter.answers_truthful`.
-/

import Subduction.Storage.Redb

namespace Subduction

open List RedbTables

section GroupCommit

variable [Blake3] [Ed25519] [Bijou64Codec]

/-- What becomes of a file that has to be written. One that fails may have been renamed into place. -/
inductive Staging where
  | written
  | failed (renamed : Bool)

/-- A queued write: the number of its caller, and what becomes of it. Its file is staged with those of its
drain, and again when it is written alone; then its transaction commits or does not. -/
structure QueuedWrite where
  caller : Nat
  job : WriteJob
  together : Staging
  alone : Staging
  commits : Bool

/-- The tables, and the blobs with an intact file. -/
structure RedbData where
  tables : RedbTables
  files : Finset (Digest Blob)

/-- `stage_external_blob_sync`: an intact file is left alone. -/
def stageExternalBlob (inlineThreshold : Nat) (files : Finset (Digest Blob)) (job : WriteJob)
    (outcome : Staging) : Finset (Digest Blob) × Bool :=
  if job.isExternal inlineThreshold ∧ job.item.blobDigest ∉ files then
    match outcome with
    | .written => (insert job.item.blobDigest files, true)
    | .failed renamed => (if renamed then insert job.item.blobDigest files else files, false)
  else (files, true)

/-- The files of a drain, up to the first that fails. -/
def stageAll (inlineThreshold : Nat) :
    Finset (Digest Blob) → List QueuedWrite → Finset (Digest Blob) × Bool
  | files, [] => (files, true)
  | files, write :: rest =>
    let staged := stageExternalBlob inlineThreshold files write.job write.together
    if staged.2 then stageAll inlineThreshold staged.1 rest else staged

namespace RedbData

variable (inlineThreshold : Nat)

/-- The transaction behind the files. -/
def flush (data : RedbData) (staged : Finset (Digest Blob) × Bool) (commits : Bool) (jobs : List WriteJob) :
    RedbData × Bool :=
  if staged.2 ∧ commits then
    (⟨data.tables.transact inlineThreshold (jobs.map WriteJob.tree) jobs, staged.1⟩, true)
  else (⟨data.tables, staged.1⟩, false)

/-- `flush_all`. -/
def flushAll (data : RedbData) (commits : Bool) (drain : List QueuedWrite) : RedbData × Bool :=
  data.flush inlineThreshold (stageAll inlineThreshold data.files drain) commits (drain.map (·.job))

/-- `flush_one`. -/
def flushOne (data : RedbData) (write : QueuedWrite) : RedbData × Bool :=
  data.flush inlineThreshold (stageExternalBlob inlineThreshold data.files write.job write.alone)
    write.commits [write.job]

/-- The writes one by one, each with its answer. -/
def flushEach : RedbData → List QueuedWrite → RedbData × List (QueuedWrite × Bool)
  | data, [] => (data, [])
  | data, write :: rest =>
    let one := data.flushOne inlineThreshold write
    let others := flushEach one.1 rest
    (others.1, (write, one.2) :: others.2)

/-- `write_drain`. -/
def writeDrain (data : RedbData) (commits : Bool) (drain : List QueuedWrite) :
    RedbData × List (QueuedWrite × Bool) :=
  match data.flushAll inlineThreshold commits drain with
  | (data, true) => (data, drain.map (·, true))
  | (data, false) => flushEach inlineThreshold data drain

end RedbData

/-- **The writer task** with its queue, and the answers it has given. -/
structure GroupWriter where
  data : RedbData
  queue : List QueuedWrite
  answers : List (QueuedWrite × Bool)
  calls : Nat

inductive GroupEvent where
  /-- `enqueue_write`. -/
  | enqueue (job : WriteJob) (together alone : Staging) (commits : Bool)
  /-- The task takes some of the queued writes, and answers them. -/
  | drain (size : Nat) (commits : Bool)

namespace GroupWriter

def new : GroupWriter := ⟨⟨.empty, ∅⟩, [], [], 0⟩

/-- **One step of the writer.** -/
def step (inlineThreshold : Nat) (writer : GroupWriter) : GroupEvent → GroupWriter
  | .enqueue job together alone commits =>
    { writer with
      queue := writer.queue ++ [⟨writer.calls, job, together, alone, commits⟩]
      calls := writer.calls + 1 }
  | .drain size commits =>
    let written := writer.data.writeDrain inlineThreshold commits (writer.queue.take size)
    { writer with
      data := written.1
      queue := writer.queue.drop size
      answers := writer.answers ++ written.2 }

end GroupWriter

/-- The writes that were answered `Ok`. -/
def okJobs (answers : List (QueuedWrite × Bool)) : List WriteJob := (answers.filter (·.2)).map (·.1.job)

/-- An external blob has its file. -/
def Staged (inlineThreshold : Nat) (files : Finset (Digest Blob)) (job : WriteJob) : Prop :=
  job.isExternal inlineThreshold → job.item.blobDigest ∈ files

/-! ### The files -/

section Files

variable {threshold : Nat} {files : Finset (Digest Blob)} {drain : List QueuedWrite}

theorem stageExternalBlob_spec (threshold : Nat) (files : Finset (Digest Blob)) (job : WriteJob)
    (outcome : Staging) :
    files ⊆ (stageExternalBlob threshold files job outcome).1 ∧
      ((stageExternalBlob threshold files job outcome).2 →
        Staged threshold (stageExternalBlob threshold files job outcome).1 job) ∧
      (outcome = .written → (stageExternalBlob threshold files job outcome).2) := by
  unfold stageExternalBlob Staged
  split
  · cases outcome with
    | written => simp
    | failed renamed => cases renamed <;> simp
  · rename_i there
    simpa using there

theorem subset_stageAll (threshold : Nat) (files : Finset (Digest Blob)) (drain : List QueuedWrite) :
    files ⊆ (stageAll threshold files drain).1 := by
  induction drain generalizing files with
  | nil => exact subset_rfl
  | cons write rest ih =>
    have first := (stageExternalBlob_spec threshold files write.job write.together).1
    unfold stageAll
    dsimp only
    split
    · exact first.trans (ih _)
    · exact first

theorem staged_stageAll (isOk : (stageAll threshold files drain).2) :
    ∀ write ∈ drain, Staged threshold (stageAll threshold files drain).1 write.job := by
  induction drain generalizing files with
  | nil => exact fun _ member => absurd member not_mem_nil
  | cons first rest ih =>
    unfold stageAll at isOk ⊢
    dsimp only at isOk ⊢
    split at isOk
    · rename_i staged
      rw [if_pos staged]
      refine forall_mem_cons.mpr ⟨fun isExternal => subset_stageAll _ _ rest ?_, ih isOk⟩
      exact (stageExternalBlob_spec _ _ _ _).2.1 staged isExternal
    · rename_i failed
      exact absurd isOk failed

end Files

/-! ### The tables -/

variable {threshold : Nat}

/-- The inserts do not look at the registered trees. -/
theorem insertJobs_eq (threshold : Nat) (trees : Finset SedimentreeId) (tables : RedbTables)
    (jobs : List WriteJob) :
    insertJobs ⟨trees, tables.commits, tables.fragments⟩ threshold jobs =
      ⟨trees, (tables.insertJobs threshold jobs).commits, (tables.insertJobs threshold jobs).fragments⟩ := by
  induction jobs generalizing tables with
  | nil => rfl
  | cons job jobs ih =>
    have one : insertJob ⟨trees, tables.commits, tables.fragments⟩ threshold job =
        ⟨trees, (tables.insertJob threshold job).commits, (tables.insertJob threshold job).fragments⟩ := by
      obtain ⟨tree, item⟩ := job
      cases item <;> rfl
    rw [insertJobs, foldl_cons, one]
    exact ih _

/-- The transaction that registers the trees of its items. -/
def commitJobs (threshold : Nat) (tables : RedbTables) (jobs : List WriteJob) : RedbTables :=
  tables.transact threshold (jobs.map WriteJob.tree) jobs

theorem commitJobs_eq (tables : RedbTables) (jobs : List WriteJob) : commitJobs threshold tables jobs =
    ⟨(jobs.map WriteJob.tree).toFinset ∪ tables.trees, (tables.insertJobs threshold jobs).commits,
      (tables.insertJobs threshold jobs).fragments⟩ :=
  insertJobs_eq threshold _ tables jobs

theorem commitJobs_append (tables : RedbTables) (jobs others : List WriteJob) :
    commitJobs threshold tables (jobs ++ others) =
      commitJobs threshold (commitJobs threshold tables jobs) others := by
  have appended : tables.insertJobs threshold (jobs ++ others) =
      (tables.insertJobs threshold jobs).insertJobs threshold others := foldl_append
  have registered := insertJobs_eq threshold (commitJobs threshold tables jobs).trees
    (tables.insertJobs threshold jobs) others
  rw [commitJobs_eq, commitJobs_eq (commitJobs _ _ _), appended]
  rw [commitJobs_eq tables jobs] at registered ⊢
  rw [registered, map_append, toFinset_append, Finset.union_left_comm, Finset.union_assoc]

/-! ### One drain -/

/-- **The answers to a drain are true.** -/
structure Truthful (threshold : Nat) (before after : RedbData) (drain : List QueuedWrite)
    (answers : List (QueuedWrite × Bool)) : Prop where
  order : answers.map Prod.fst = drain
  tables : after.tables = commitJobs threshold before.tables (okJobs answers)
  files : before.files ⊆ after.files
  staged : ∀ job ∈ okJobs answers, Staged threshold after.files job
  alone : ∀ answer ∈ answers, answer.1.alone = .written → answer.1.commits → answer.2

theorem Truthful.nil (threshold : Nat) (data : RedbData) : Truthful threshold data data [] [] :=
  ⟨rfl, by simp [okJobs, commitJobs, transact, insertJobs], subset_rfl,
    fun _ member => absurd member not_mem_nil, fun _ member => absurd member not_mem_nil⟩

theorem Truthful.append {before between after : RedbData} {drain rest : List QueuedWrite}
    {answers others : List (QueuedWrite × Bool)} (first : Truthful threshold before between drain answers)
    (second : Truthful threshold between after rest others) :
    Truthful threshold before after (drain ++ rest) (answers ++ others) := by
  have jobs : okJobs (answers ++ others) = okJobs answers ++ okJobs others := by
    simp [okJobs]
  refine ⟨by rw [map_append, first.order, second.order], ?_, first.files.trans second.files,
    fun job member isExternal => ?_, fun answer member => ?_⟩
  · rw [jobs, second.tables, first.tables, commitJobs_append]
  · rcases mem_append.mp (jobs ▸ member) with old | new
    · exact second.files (first.staged job old isExternal)
    · exact second.staged job new isExternal
  · exact (mem_append.mp member).elim (first.alone answer) (second.alone answer)

theorem truthful_flushOne (data : RedbData) (write : QueuedWrite) :
    Truthful threshold data (data.flushOne threshold write).1 [write]
      [(write, (data.flushOne threshold write).2)] := by
  obtain ⟨files, staged, written⟩ := stageExternalBlob_spec threshold data.files write.job write.alone
  unfold RedbData.flushOne RedbData.flush
  split
  · rename_i isOk
    exact ⟨rfl, rfl, files, forall_mem_singleton.mpr (staged isOk.1),
      forall_mem_singleton.mpr fun _ _ => rfl⟩
  · rename_i failed
    exact ⟨rfl, (Truthful.nil threshold data).tables, files, fun _ member => absurd member not_mem_nil,
      forall_mem_singleton.mpr fun writes commits => absurd ⟨written writes, commits⟩ failed⟩

theorem truthful_flushEach (threshold : Nat) (data : RedbData) (drain : List QueuedWrite) :
    Truthful threshold data (RedbData.flushEach threshold data drain).1 drain
      (RedbData.flushEach threshold data drain).2 := by
  induction drain generalizing data with
  | nil => exact .nil threshold data
  | cons write rest ih => exact (truthful_flushOne data write).append (ih _)

theorem truthful_writeDrain (threshold : Nat) (data : RedbData) (commits : Bool)
    (drain : List QueuedWrite) :
    Truthful threshold data (data.writeDrain threshold commits drain).1 drain
      (data.writeDrain threshold commits drain).2 := by
  have files := subset_stageAll threshold data.files drain
  unfold RedbData.writeDrain RedbData.flushAll RedbData.flush
  by_cases isOk : (stageAll threshold data.files drain).2 ∧ commits
  · rw [if_pos isOk]
    have all : okJobs (drain.map (·, true)) = drain.map (·.job) := by
      simp [okJobs, filter_map, Function.comp_def]
    refine ⟨by simp [Function.comp_def], congrArg (commitJobs threshold data.tables) all.symm, files,
      fun job member => ?_, fun answer member _ _ => ?_⟩
    · obtain ⟨write, listed, rfl⟩ := mem_map.mp (all ▸ member)
      exact staged_stageAll isOk.1 write listed
    · obtain ⟨write, -, rfl⟩ := mem_map.mp member
      rfl
  · rw [if_neg isOk]
    -- the files that were staged before the failure stay, the tables are as they were
    have each := truthful_flushEach threshold ⟨data.tables, (stageAll threshold data.files drain).1⟩ drain
    exact { each with files := files.trans each.files }

/-! ### Whole runs -/

/-- **The invariant**: the answers and the queue list the callers in order, and the answers are true. -/
structure GroupWriter.Inv (threshold : Nat) (writer : GroupWriter) : Prop where
  order : (writer.answers.map Prod.fst ++ writer.queue).map QueuedWrite.caller = range writer.calls
  truthful : Truthful threshold new.data writer.data (writer.answers.map Prod.fst) writer.answers

theorem GroupWriter.Inv.step {writer : GroupWriter} (inv : Inv threshold writer) (event : GroupEvent) :
    Inv threshold (writer.step threshold event) := by
  cases event with
  | enqueue job together alone commits =>
    refine ⟨?_, inv.truthful⟩
    rw [GroupWriter.step, ← append_assoc, map_append, inv.order, range_succ]
    rfl
  | drain size commits =>
    have truthful := inv.truthful.append
      (truthful_writeDrain threshold writer.data commits (writer.queue.take size))
    have order := inv.order
    rw [← take_append_drop size writer.queue, ← append_assoc, ← truthful.order] at order
    rw [← truthful.order] at truthful
    exact ⟨order, truthful⟩

/-- **Group commit answers every caller truthfully**, whatever is written, drained and fails. The callers
are answered in the order of their calls, each once. The tables are what one transaction with the writes
that were answered `Ok` makes of empty ones; each of these has its tree registered, its record, and its
file where its blob is external. A write whose own file and transaction succeed is answered `Ok`. -/
theorem GroupWriter.answers_truthful (threshold : Nat) (events : List GroupEvent) :
    let writer := events.foldl (step threshold) new
    let tables := writer.data.tables
    (writer.answers.map Prod.fst ++ writer.queue).map QueuedWrite.caller = range writer.calls ∧
      tables = RedbTables.empty.transact threshold ((okJobs writer.answers).map WriteJob.tree)
        (okJobs writer.answers) ∧
      (∀ job ∈ okJobs writer.answers, job.tree ∈ tables.trees ∧
        ((tables.table job.item.kind).get? job.key).isSome ∧
        (job.isExternal threshold → job.item.blobDigest ∈ writer.data.files)) ∧
      ∀ answer ∈ writer.answers, answer.1.alone = .written → answer.1.commits → answer.2 := by
  intro writer tables
  have inv : Inv threshold writer := foldlRecOn events (step threshold) ⟨rfl, .nil _ _⟩
    fun writer inv event _ => inv.step event
  have isTables : tables = commitJobs threshold .empty (okJobs writer.answers) := inv.truthful.tables
  refine ⟨inv.order, isTables, fun job isOk => ⟨?_, ?_, inv.truthful.staged job isOk⟩, inv.truthful.alone⟩
  · rw [isTables, commitJobs_eq]
    exact Finset.mem_union_left _ (mem_toFinset.mpr (mem_map_of_mem isOk))
  · rw [isTables]
    exact isSome_get?_transact (Or.inr ⟨job, isOk, rfl, rfl⟩)

end GroupCommit

end Subduction
