/-
**Compaction of the keyhive storage.**

All archives and events are ingested, one archive of the result is saved, and then the old archives and
the events that are not pending are deleted. Entries are kept by the hash of their bytes, and a pending
event is recognised by the hash of its encoding. A peer may have sent other bytes for it.

* **`noLoss_of_canonical`** — nothing is lost wherever compaction stops, if pending events are stored as
  they are encoded.
* **`compact_keeps_pending_iff`**.
-/

import Subduction.Lib.Fallible
import Subduction.Lib.FinMap
import Subduction.Core.Digest

set_option linter.unusedSectionVars false

namespace Subduction

open List FinMap

/-- `StorageHash`: the key of a stored entry. -/
structure StorageHash where
  bytes : BitVec (8 * 32)
deriving DecidableEq

theorem StorageHash.toNat_injective : Function.Injective fun hash : StorageHash => hash.bytes.toNat :=
  fun ⟨_⟩ ⟨_⟩ same => congrArg mk (BitVec.eq_of_toNat_eq same)

instance : LinearOrder StorageHash :=
  LinearOrder.lift' (fun hash => hash.bytes.toNat) StorageHash.toNat_injective

/-- `hash_event_bytes`. -/
def hashEventBytes [Blake3] (bytes : List UInt8) : StorageHash := ⟨Blake3.hash bytes⟩

/-- `StorageError`, without the texts of the causes. -/
inductive StorageError where
  | serialization
  | deserialization
  | save
  | load
  | delete
deriving DecidableEq

/-! ### Storage -/

/-- **The stored archives and events.** Events are saved by `save_event_bytes`, under the hash of what
was received. -/
structure KeyhiveStorage [Blake3] where
  archives : FinMap StorageHash (List UInt8)
  events : FinMap StorageHash (List UInt8)
  addressed : ∀ {hash bytes}, events.get? hash = some bytes → hash = hashEventBytes bytes

namespace KeyhiveStorage

variable [Blake3]

/-- `save_event_bytes`. -/
def saveEventBytes (storage : KeyhiveStorage) (bytes : List UInt8) : KeyhiveStorage where
  archives := storage.archives
  events := storage.events.insert (hashEventBytes bytes) bytes
  addressed {hash found} stored := by
    rcases FinMap.of_get?_insert stored with ⟨rfl, rfl⟩ | ⟨-, older⟩
    · rfl
    · exact storage.addressed older

def empty : KeyhiveStorage := ⟨∅, ∅, fun found => nomatch found⟩

variable (storage : KeyhiveStorage) (hash : StorageHash)

def saveArchive (bytes : List UInt8) : KeyhiveStorage :=
  { storage with archives := storage.archives.insert hash bytes }

def deleteArchive : KeyhiveStorage :=
  { storage with archives := storage.archives.erase hash }

def deleteEvent : KeyhiveStorage where
  archives := storage.archives
  events := storage.events.erase hash
  addressed {key bytes} stored := by
    rw [FinMap.get?_erase] at stored
    split at stored
    · cases stored
    · exact storage.addressed stored

end KeyhiveStorage

/-- What becomes of an operation of the storage: it is done, it fails, or it is done but reported as
failed. -/
inductive Outcome where
  | done
  | refused
  | unconfirmed
deriving DecidableEq

/-- The storage and the outcomes of the next operations; later ones are done. -/
structure StorageRun [Blake3] where
  storage : KeyhiveStorage
  outcomes : List Outcome

/-! ### Events and the keyhive -/

/-- Serialization of events: what follows on an encoded event is ignored. -/
class Bincode (E : Type) where
  serialize : E → List UInt8
  deserialize : List UInt8 → Option E
  deserialize_serialize : ∀ event rest, deserialize (serialize event ++ rest) = some event

/-- **A keyhive that is archived.** Events that are not reported as pending are in the archive. -/
class ArchivedKeyhive (κ E : Type) where
  ingestArchive : κ → List UInt8 → Except StorageError κ
  ingestUnsortedStaticEvents : κ → List E → κ × List E
  intoArchive : κ → List UInt8
  Covers : List UInt8 → E → Prop
  covers_intoArchive : ∀ keyhive events event, event ∈ events →
    event ∉ (ingestUnsortedStaticEvents keyhive events).2 →
      Covers (intoArchive (ingestUnsortedStaticEvents keyhive events).1) event

/-! ### Compaction -/

section Compact

variable [Blake3] [IterOrder StorageHash] {κ E : Type} [Bincode E] [ArchivedKeyhive κ E]

def attempt (error : StorageError) (write : KeyhiveStorage → KeyhiveStorage) :
    Fallible StorageRun StorageError Unit := do
  let run ← get
  match run.outcomes with
  | [] => set { run with storage := write run.storage }
  | .done :: outcomes => set (⟨write run.storage, outcomes⟩ : StorageRun)
  | .refused :: outcomes => do
      set (⟨run.storage, outcomes⟩ : StorageRun)
      throw error
  | .unconfirmed :: outcomes => do
      set (⟨write run.storage, outcomes⟩ : StorageRun)
      throw error

def loadArchives : Fallible StorageRun StorageError (List (StorageHash × List UInt8)) := do
  attempt .load id
  return (← get).storage.archives.entries

def loadEvents : Fallible StorageRun StorageError (List (StorageHash × List UInt8)) := do
  attempt .load id
  return (← get).storage.events.entries

/-- `bincode_deserialize` of an event. -/
def bincodeDeserialize (bytes : List UInt8) : Except StorageError E :=
  match Bincode.deserialize bytes with
  | some event => .ok event
  | none => .error .deserialization

/-- Ingest all archives, then all events: the keyhive and the pending events. -/
def reingest (keyhive : κ) (rawArchives rawEvents : List (StorageHash × List UInt8)) :
    Except StorageError (κ × List E) := do
  let keyhive ← rawArchives.foldlM
    (fun keyhive entry => ArchivedKeyhive.ingestArchive E keyhive entry.2) keyhive
  let events ← rawEvents.mapM fun entry => bincodeDeserialize entry.2
  return ArchivedKeyhive.ingestUnsortedStaticEvents keyhive events

/-- `event_hash_to_storage`. -/
def eventHashToStorage (rawEvents : List (StorageHash × List UInt8)) : FinMap StorageHash StorageHash :=
  rawEvents.foldl (fun map entry => map.insert (hashEventBytes entry.2) entry.1) ∅

def pendingHashes (pending : List E) : List StorageHash :=
  pending.map fun event => hashEventBytes (Bincode.serialize event)

/-- What `compact` does once it has the keyhive and the pending events. -/
def consolidate (archive : List UInt8) (pending : List E) (storageId : StorageHash)
    (rawArchives rawEvents : List (StorageHash × List UInt8)) : Fallible StorageRun StorageError Unit := do
  attempt .save fun storage => storage.saveArchive storageId archive
  rawArchives.forM fun entry =>
    if entry.1 ≠ storageId then attempt .delete fun storage => storage.deleteArchive entry.1 else pure ()
  (eventHashToStorage rawEvents).entries.forM fun entry =>
    if entry.1 ∉ pendingHashes pending then attempt .delete fun storage => storage.deleteEvent entry.2
    else pure ()

variable (E) in
/-- `compact`, once everything is loaded. -/
def compactLoaded (keyhive : κ) (storageId : StorageHash)
    (rawArchives rawEvents : List (StorageHash × List UInt8)) : Fallible StorageRun StorageError Unit :=
  if rawEvents = [] ∧ rawArchives.length ≤ 1 then pure ()
  else do
    let result ← (reingest keyhive rawArchives rawEvents : Except StorageError (κ × List E))
    consolidate (ArchivedKeyhive.intoArchive E result.1) result.2 storageId rawArchives rawEvents

variable (E) in
/-- `compact`. -/
def compact (keyhive : κ) (storageId : StorageHash) : Fallible StorageRun StorageError Unit := do
  let rawArchives ← loadArchives
  let rawEvents ← loadEvents
  compactLoaded E keyhive storageId rawArchives rawEvents

/-! ### What is stored -/

/-- An event is stored, as bytes that decode to it. -/
def Stored (storage : KeyhiveStorage) (event : E) : Prop :=
  ∃ hash bytes, storage.events.get? hash = some bytes ∧ Bincode.deserialize bytes = some event

variable (κ) in
/-- A stored archive has the event. -/
def Covered (storage : KeyhiveStorage) (event : E) : Prop :=
  ∃ hash bytes, storage.archives.get? hash = some bytes ∧ ArchivedKeyhive.Covers κ bytes event

variable (κ) in
/-- **Nothing is lost**: pending events are still stored, and the others are in an archive unless
nothing was changed. -/
structure NoLoss (before after : KeyhiveStorage) (pending : List E) : Prop where
  kept : ∀ event ∈ pending, Stored before event → Stored after event
  others : after = before ∨ ∀ event ∉ pending, Stored before event → Covered κ after event

/-- The events that ingestion reports as pending; none if it is not reached. -/
def reported (keyhive : κ) (storage : KeyhiveStorage) : List E :=
  match reingest keyhive storage.archives.entries storage.events.entries with
  | .error _ => []
  | .ok result => result.2

/-- **Each stored pending event is stored as it is encoded.** -/
def Canonical (storage : KeyhiveStorage) (pending : List E) : Prop :=
  ∀ event ∈ pending, Stored storage event →
    ∃ hash, storage.events.get? hash = some (Bincode.serialize event)

/-- The byte strings that compaction hashes. -/
def hashedBytes (storage : KeyhiveStorage) (pending : List E) : Set (List UInt8) :=
  {bytes | (∃ hash, storage.events.get? hash = some bytes) ∨
    ∃ event ∈ pending, bytes = Bincode.serialize event}

theorem NoLoss.refl (storage : KeyhiveStorage) (pending : List E) : NoLoss κ storage storage pending :=
  ⟨fun _ _ stored => stored, .inl rfl⟩

theorem deserialize_serialize (event : E) :
    Bincode.deserialize (Bincode.serialize event) = some event := by
  simpa using Bincode.deserialize_serialize event []

theorem eventHashToStorage_concat (rawEvents : List (StorageHash × List UInt8))
    (entry : StorageHash × List UInt8) :
    eventHashToStorage (rawEvents ++ [entry]) =
      (eventHashToStorage rawEvents).insert (hashEventBytes entry.2) entry.1 := by
  rw [eventHashToStorage, foldl_append]
  rfl

theorem eventHashToStorage_eq_some {rawEvents : List (StorageHash × List UInt8)}
    {eventHash storageHash : StorageHash}
    (found : (eventHashToStorage rawEvents).get? eventHash = some storageHash) :
    ∃ bytes, (storageHash, bytes) ∈ rawEvents ∧ eventHash = hashEventBytes bytes := by
  induction rawEvents using List.reverseRecOn with
  | nil => cases found
  | append_singleton rawEvents entry ih =>
    rw [eventHashToStorage_concat] at found
    rcases of_get?_insert found with ⟨isEntry, rfl⟩ | ⟨-, earlier⟩
    · exact ⟨entry.2, mem_append_right _ (mem_singleton_self entry), isEntry⟩
    · obtain ⟨bytes, member, isHash⟩ := ih earlier
      exact ⟨bytes, mem_append_left _ member, isHash⟩

theorem hash_mem_eventHashToStorage {rawEvents : List (StorageHash × List UInt8)}
    {hash : StorageHash} {bytes : List UInt8} (member : (hash, bytes) ∈ rawEvents) :
    ∃ storageHash, (eventHashToStorage rawEvents).get? (hashEventBytes bytes) = some storageHash := by
  induction rawEvents using List.reverseRecOn with
  | nil => cases member
  | append_singleton rawEvents entry ih =>
    rw [eventHashToStorage_concat, FinMap.get?_insert]
    split
    · exact ⟨entry.1, rfl⟩
    · rename_i different
      rcases mem_append.mp member with earlier | last
      · exact ih earlier
      · rw [← mem_singleton.mp last] at different
        exact absurd rfl different

theorem eventHashToStorage_entries (storage : KeyhiveStorage) {hash : StorageHash} {bytes : List UInt8}
    (stored : storage.events.get? hash = some bytes) :
    (eventHashToStorage storage.events.entries).get? (hashEventBytes bytes) = some hash := by
  obtain ⟨found, isFound⟩ := hash_mem_eventHashToStorage (mem_entries.mpr stored)
  obtain ⟨others, member, sameHash⟩ := eventHashToStorage_eq_some isFound
  rw [isFound, storage.addressed stored, sameHash]
  exact congrArg some (storage.addressed (mem_entries.mp member))

/-! ### Operations -/

section Attempt

variable {error : StorageError} {write : KeyhiveStorage → KeyhiveStorage}
  (before after stopped : KeyhiveStorage → Prop)

/-- **An operation**: it is done, or compaction stops with or without its effect. -/
theorem ensures_attempt (works : ∀ storage, before storage → after (write storage))
    (stops : ∀ storage, before storage → stopped storage ∧ stopped (write storage)) :
    Fallible.Ensures (fun run => before run.storage) (attempt error write)
      (fun _ run => after run.storage) (fun _ run => stopped run.storage) := by
  rintro ⟨storage, outcomes⟩ holds
  cases outcomes with
  | nil => exact works storage holds
  | cons outcome outcomes =>
    cases outcome with
    | done => exact works storage holds
    | refused => exact (stops storage holds).1
    | unconfirmed => exact (stops storage holds).2

theorem ensures_attempt_done (works : ∀ storage, before storage → after (write storage)) :
    Fallible.Ensures (fun run => run.outcomes = [] ∧ before run.storage) (attempt error write)
      (fun _ run => run.outcomes = [] ∧ after run.storage) (fun _ _ => False) := by
  rintro ⟨storage, outcomes⟩ ⟨working, holds⟩
  obtain rfl : outcomes = [] := working
  exact ⟨rfl, works storage holds⟩

end Attempt

/-! ### Nothing is lost -/

section Consolidate

variable {storage : KeyhiveStorage} {archive : List UInt8} {pending : List E} {storageId : StorageHash}

/-- **While entries are deleted**: the new archive and the events with the hash of a pending one are
there. -/
structure Consolidating (storage : KeyhiveStorage) (archive : List UInt8) (pending : List E)
    (storageId : StorageHash) (now : KeyhiveStorage) : Prop where
  archived : now.archives.get? storageId = some archive
  kept : ∀ {hash bytes}, storage.events.get? hash = some bytes →
    hashEventBytes bytes ∈ pendingHashes pending → now.events.get? hash = some bytes

theorem consolidating_saveArchive :
    Consolidating storage archive pending storageId (storage.saveArchive storageId archive) :=
  ⟨FinMap.get?_insert_self _ _ _, fun stored _ => stored⟩

theorem Consolidating.deleteArchive {now : KeyhiveStorage} {hash : StorageHash}
    (consolidating : Consolidating storage archive pending storageId now) (other : hash ≠ storageId) :
    Consolidating storage archive pending storageId (now.deleteArchive hash) := by
  refine ⟨?_, consolidating.kept⟩
  show (now.archives.erase hash).get? storageId = _
  rw [FinMap.get?_erase, if_neg other.symm]
  exact consolidating.archived

theorem Consolidating.deleteEvent {now : KeyhiveStorage} {eventHash storageHash : StorageHash}
    (consolidating : Consolidating storage archive pending storageId now)
    (leads : (eventHashToStorage storage.events.entries).get? eventHash = some storageHash)
    (notPending : eventHash ∉ pendingHashes pending) :
    Consolidating storage archive pending storageId (now.deleteEvent storageHash) := by
  refine ⟨consolidating.archived, fun {hash bytes} stored isPending => ?_⟩
  obtain ⟨deleted, member, isHash⟩ := eventHashToStorage_eq_some leads
  have different : hash ≠ storageHash := by
    rintro rfl
    have same : bytes = deleted := Option.some.inj (stored.symm.trans (mem_entries.mp member))
    rw [isHash, ← same] at notPending
    exact notPending isPending
  show (now.events.erase storageHash).get? hash = _
  rw [FinMap.get?_erase, if_neg different]
  exact consolidating.kept stored isPending

/-- **Deleting stops anywhere** with the archive and the pending events. -/
theorem ensures_consolidate (stopped : KeyhiveStorage → Prop) (start : stopped storage)
    (later : ∀ now, Consolidating storage archive pending storageId now → stopped now)
    (rawArchives : List (StorageHash × List UInt8)) :
    Fallible.Ensures (fun run => run.storage = storage)
      (consolidate archive pending storageId rawArchives storage.events.entries)
      (fun _ run => stopped run.storage) (fun _ run => stopped run.storage) := by
  unfold consolidate
  let invariant : KeyhiveStorage → Prop := Consolidating storage archive pending storageId
  have saved : Fallible.Ensures (fun run => run.storage = storage)
      (attempt .save fun storage => storage.saveArchive storageId archive)
      (fun _ run => invariant run.storage) (fun _ run => stopped run.storage) := by
    refine ensures_attempt (· = storage) invariant stopped ?_ ?_
    · rintro _ rfl
      exact consolidating_saveArchive
    · rintro _ rfl
      exact ⟨start, later _ consolidating_saveArchive⟩
  have archivesDeleted : Fallible.Ensures (fun run => invariant run.storage)
      (rawArchives.forM fun entry => if entry.1 ≠ storageId then
        attempt .delete fun storage => storage.deleteArchive entry.1 else pure ())
      (fun _ run => invariant run.storage) (fun _ run => stopped run.storage) := by
    refine Fallible.Ensures.forM (fun _ (run : StorageRun) => invariant run.storage) rawArchives fun _ entry _ _ => ?_
    by_cases other : entry.1 ≠ storageId
    · rw [if_pos other]
      refine ensures_attempt invariant invariant stopped ?_ ?_
      · exact fun now holds => holds.deleteArchive other
      · exact fun now holds => ⟨later now holds, later _ (holds.deleteArchive other)⟩
    · rw [if_neg other]
      exact fun _ holds => holds
  have eventsDeleted : Fallible.Ensures (fun run => invariant run.storage)
      ((eventHashToStorage storage.events.entries).entries.forM fun entry =>
        if entry.1 ∉ pendingHashes pending then
          attempt .delete fun storage => storage.deleteEvent entry.2 else pure ())
      (fun _ run => invariant run.storage) (fun _ run => stopped run.storage) := by
    refine Fallible.Ensures.forM (fun _ (run : StorageRun) => invariant run.storage) _ fun _ entry _ split => ?_
    have leads : (eventHashToStorage storage.events.entries).get? entry.1 = some entry.2 := by
      refine mem_entries.mp ?_
      rw [← split]
      exact mem_append_right _ mem_cons_self
    by_cases notPending : entry.1 ∉ pendingHashes pending
    · rw [if_pos notPending]
      refine ensures_attempt invariant invariant stopped ?_ ?_
      · exact fun now holds => holds.deleteEvent leads notPending
      · exact fun now holds => ⟨later now holds, later _ (holds.deleteEvent leads notPending)⟩
    · rw [if_neg notPending]
      exact fun _ holds => holds
  refine saved.bind fun _ => archivesDeleted.bind fun _ => eventsDeleted.mono ?_ ?_ ?_
  · exact fun _ holds => holds
  · exact fun _ run holds => later run.storage holds
  · exact fun _ _ holds => holds

/-- **A storage that works**: of the events only those with the hash of a pending one are left. -/
theorem ensures_consolidate_done (storage : KeyhiveStorage) (archive : List UInt8) (pending : List E)
    (storageId : StorageHash) (rawArchives : List (StorageHash × List UInt8)) :
    Fallible.Ensures (fun run => run.outcomes = [] ∧ run.storage = storage)
      (consolidate archive pending storageId rawArchives storage.events.entries)
      (fun _ run => ∀ hash bytes, run.storage.events.get? hash = some bytes →
        storage.events.get? hash = some bytes ∧ hashEventBytes bytes ∈ pendingHashes pending)
      (fun _ _ => False) := by
  unfold consolidate
  let unchanged : KeyhiveStorage → Prop := fun now => now.events = storage.events
  have saved : Fallible.Ensures (fun run => run.outcomes = [] ∧ run.storage = storage)
      (attempt .save fun storage => storage.saveArchive storageId archive)
      (fun _ run => run.outcomes = [] ∧ unchanged run.storage) (fun _ _ => False) := by
    refine ensures_attempt_done (· = storage) unchanged ?_
    rintro _ rfl
    exact rfl
  have archivesDeleted : Fallible.Ensures (fun run => run.outcomes = [] ∧ unchanged run.storage)
      (rawArchives.forM fun entry => if entry.1 ≠ storageId then
        attempt .delete fun storage => storage.deleteArchive entry.1 else pure ())
      (fun _ run => run.outcomes = [] ∧ unchanged run.storage) (fun _ _ => False) := by
    refine Fallible.Ensures.forM (fun _ (run : StorageRun) => run.outcomes = [] ∧ unchanged run.storage)
      rawArchives fun _ entry _ _ => ?_
    split
    · exact ensures_attempt_done unchanged unchanged fun now same => same
    · exact fun _ holds => holds
  -- what was passed so far is deleted, unless it has the hash of a pending event
  let remaining (passed : List (StorageHash × StorageHash)) (now : KeyhiveStorage) : Prop :=
    ∀ hash bytes, now.events.get? hash = some bytes → storage.events.get? hash = some bytes ∧
      ∀ entry ∈ passed, entry.2 = hash → entry.1 ∈ pendingHashes pending
  have eventsDeleted : Fallible.Ensures (fun run => run.outcomes = [] ∧ remaining [] run.storage)
      ((eventHashToStorage storage.events.entries).entries.forM fun entry =>
        if entry.1 ∉ pendingHashes pending then
          attempt .delete fun storage => storage.deleteEvent entry.2 else pure ())
      (fun _ run => run.outcomes = [] ∧
        remaining (eventHashToStorage storage.events.entries).entries run.storage)
      (fun _ _ => False) := by
    refine Fallible.Ensures.forM
      (fun passed (run : StorageRun) => run.outcomes = [] ∧ remaining passed run.storage) _
      fun passed entry _ _ => ?_
    by_cases notPending : entry.1 ∉ pendingHashes pending
    · rw [if_pos notPending]
      refine ensures_attempt_done (remaining passed) (remaining (passed ++ [entry])) ?_
      intro now holds hash bytes stored
      have isErased : (now.events.erase entry.2).get? hash = some bytes := stored
      rw [FinMap.get?_erase] at isErased
      split at isErased
      · cases isErased
      · rename_i different
        obtain ⟨before, soFar⟩ := holds hash bytes isErased
        refine ⟨before, fun other member same => ?_⟩
        rcases mem_append.mp member with earlier | last
        · exact soFar other earlier same
        · rw [mem_singleton.mp last] at same
          exact absurd same.symm different
    · rw [if_neg notPending]
      rintro run ⟨working, holds⟩
      refine ⟨working, fun hash bytes stored => ?_⟩
      obtain ⟨before, soFar⟩ := holds hash bytes stored
      refine ⟨before, fun other member same => ?_⟩
      rcases mem_append.mp member with earlier | last
      · exact soFar other earlier same
      · rw [mem_singleton.mp last]
        exact not_not.mp notPending
  refine saved.bind fun _ => archivesDeleted.bind fun _ => eventsDeleted.mono ?_ ?_ ?_
  · rintro run ⟨working, same⟩
    refine ⟨working, fun hash bytes stored => ⟨?_, fun _ member => nomatch member⟩⟩
    rw [← same]
    exact stored
  · rintro _ run ⟨-, holds⟩ hash bytes stored
    obtain ⟨before, passed⟩ := holds hash bytes stored
    exact ⟨before, passed (hashEventBytes bytes, hash)
      (mem_entries.mpr (eventHashToStorage_entries storage before)) rfl⟩
  · exact fun _ _ impossible => impossible

end Consolidate

/-! ### Compaction as a whole -/

variable {keyhive : κ} {storage : KeyhiveStorage} {storageId : StorageHash}

theorem ensures_load (stopped : KeyhiveStorage → Prop) (start : stopped storage)
    (read : KeyhiveStorage → List (StorageHash × List UInt8)) :
    Fallible.Ensures (fun run => run.storage = storage) (do
        attempt .load id
        return read (← get).storage)
      (fun entries run => run.storage = storage ∧ entries = read storage)
      (fun _ run => stopped run.storage) := by
  refine (ensures_attempt (· = storage) (· = storage) stopped ?_ ?_).bind fun _ => ?_
  · exact fun now same => same
  · rintro _ rfl
    exact ⟨start, start⟩
  · rintro run same
    exact ⟨same, congrArg read same⟩

theorem mem_of_mapM_ok {α β : Type} {f : α → Except StorageError β} {items : List α} {results : List β}
    (ran : items.mapM f = .ok results) {item : α} (member : item ∈ items) :
    ∃ result ∈ results, f item = .ok result := by
  induction items generalizing results with
  | nil => cases member
  | cons head items ih =>
    rw [mapM_cons] at ran
    cases isFirst : f head with
    | error error =>
      rw [isFirst] at ran
      cases ran
    | ok first =>
      cases isRest : items.mapM f with
      | error error =>
        rw [isFirst, isRest] at ran
        cases ran
      | ok rest =>
        rw [isFirst, isRest] at ran
        obtain rfl : first :: rest = results := Except.ok.inj ran
        rcases mem_cons.mp member with rfl | later
        · exact ⟨first, mem_cons_self, isFirst⟩
        · obtain ⟨result, isResult, same⟩ := ih isRest later
          exact ⟨result, mem_cons_of_mem _ isResult, same⟩

theorem covers_of_reingest {rawArchives : List (StorageHash × List UInt8)} {after : κ} {pending : List E}
    (ran : reingest keyhive rawArchives storage.events.entries = .ok (after, pending)) {event : E}
    (stored : Stored storage event) (notPending : event ∉ pending) :
    ArchivedKeyhive.Covers κ (ArchivedKeyhive.intoArchive E after) event := by
  unfold reingest at ran
  cases isIngested : rawArchives.foldlM
      (fun keyhive entry => ArchivedKeyhive.ingestArchive E keyhive entry.2) keyhive with
  | error error =>
    rw [isIngested] at ran
    cases ran
  | ok ingested =>
    cases isDecoded : storage.events.entries.mapM
        fun entry => (bincodeDeserialize entry.2 : Except StorageError E) with
    | error error =>
      rw [isIngested, isDecoded] at ran
      cases ran
    | ok events =>
      rw [isIngested, isDecoded] at ran
      have isResult : ArchivedKeyhive.ingestUnsortedStaticEvents ingested events = (after, pending) :=
        Except.ok.inj ran
      obtain ⟨hash, bytes, isEntry, isEvent⟩ := stored
      obtain ⟨decoded, member, isDecode⟩ := mem_of_mapM_ok isDecoded (mem_entries.mpr isEntry)
      rw [bincodeDeserialize, isEvent] at isDecode
      obtain rfl : event = decoded := Except.ok.inj isDecode
      have covers := ArchivedKeyhive.covers_intoArchive ingested events event member
      rw [isResult] at covers
      exact covers notPending

theorem Consolidating.noLoss {archive : List UInt8} {pending : List E} {now : KeyhiveStorage}
    (consolidating : Consolidating storage archive pending storageId now)
    (canonical : Canonical storage pending)
    (covers : ∀ event, Stored storage event → event ∉ pending → ArchivedKeyhive.Covers κ archive event) :
    NoLoss κ storage now pending := by
  refine ⟨fun event isPending stored => ?_, .inr fun event notPending stored => ?_⟩
  · obtain ⟨hash, isEntry⟩ := canonical event isPending stored
    refine ⟨hash, Bincode.serialize event, consolidating.kept isEntry ?_, deserialize_serialize event⟩
    exact mem_map_of_mem isPending
  · exact ⟨storageId, archive, consolidating.archived, covers event stored notPending⟩

theorem noLoss_of_canonical (storageId : StorageHash)
    (canonical : Canonical storage (reported (E := E) keyhive storage)) :
    Fallible.Ensures (fun run => run.storage = storage) (compact E keyhive storageId)
      (fun _ run => NoLoss κ storage run.storage (reported (E := E) keyhive storage))
      (fun _ run => NoLoss κ storage run.storage (reported (E := E) keyhive storage)) := by
  have start (pending : List E) : NoLoss κ storage storage pending := .refl _ _
  let stopped (now : KeyhiveStorage) : Prop :=
    NoLoss κ storage now (reported (E := E) keyhive storage)
  unfold compact
  refine (ensures_load stopped (start _) fun storage => storage.archives.entries).bind
    fun rawArchives => .of_fact ?_
  rintro rfl
  refine (ensures_load stopped (start _) fun storage => storage.events.entries).bind
    fun rawEvents => .of_fact ?_
  rintro rfl
  unfold compactLoaded
  split
  · rintro run same
    show stopped run.storage
    rw [same]
    exact start _
  · refine (Fallible.Ensures.liftM (reingest keyhive _ _) ?_).bind fun result => .of_fact ?_
    · rintro error run same
      show stopped run.storage
      rw [same]
      exact start _
    · intro ran
      have isReported : reported keyhive storage = result.2 := by rw [reported, ran]
      refine ensures_consolidate stopped (start _) (fun now consolidating => ?_) _
      show NoLoss κ storage now (reported keyhive storage)
      rw [isReported] at canonical ⊢
      exact consolidating.noLoss canonical fun event stored notPending =>
        covers_of_reingest ran stored notPending

section

variable {after : κ} {pending : List E} (ran : reingest keyhive storage.archives.entries storage.events.entries = .ok (after, pending)) (nonempty : storage.events.entries ≠ [])

include ran nonempty

theorem exec_compact_done : Fallible.exec (compact E keyhive storageId) ⟨storage, []⟩ =
      Fallible.exec (consolidate (ArchivedKeyhive.intoArchive E after) pending storageId
        storage.archives.entries storage.events.entries) ⟨storage, []⟩ := by
  show Fallible.exec (compactLoaded E keyhive storageId storage.archives.entries
    storage.events.entries) ⟨storage, []⟩ = _
  rw [compactLoaded, if_neg (fun empty => nonempty empty.1), ran]
  rfl

/-- **What a storage that works is left with**: entries with the hash of a pending event. -/
theorem entry_of_compact_done {hash : StorageHash} {bytes : List UInt8}
    (isEntry : (Fallible.exec (compact E keyhive storageId) ⟨storage, []⟩).2.storage.events.get? hash =
      some bytes) :
    storage.events.get? hash = some bytes ∧ hashEventBytes bytes ∈ pendingHashes pending := by
  have ends := ensures_consolidate_done storage (ArchivedKeyhive.intoArchive E after) pending storageId
    storage.archives.entries ⟨storage, []⟩ ⟨rfl, rfl⟩
  rw [exec_compact_done ran nonempty] at isEntry
  cases isRun : Fallible.exec (consolidate (ArchivedKeyhive.intoArchive E after) pending storageId
      storage.archives.entries storage.events.entries) ⟨storage, []⟩ with
  | mk result run =>
    rw [isRun] at ends isEntry
    cases result with
    | ok value => exact ends hash bytes isEntry
    | error error => exact ends.elim

end

/-- **Compaction keeps pending events**, wherever it stops, exactly if each of them is stored as it is
encoded; bytes that only decode to it are deleted. -/
theorem compact_keeps_pending_iff (keyhive : κ) (storage : KeyhiveStorage) (storageId : StorageHash)
    (separated : Set.InjOn hashEventBytes
      (hashedBytes storage (reported (E := E) keyhive storage))) :
    (∀ outcomes, NoLoss κ storage
      (Fallible.exec (compact E keyhive storageId) ⟨storage, outcomes⟩).2.storage
      (reported (E := E) keyhive storage)) ↔ Canonical storage (reported (E := E) keyhive storage) := by
  constructor
  · intro noLoss event isPending stored
    cases ran : (reingest keyhive storage.archives.entries storage.events.entries :
        Except StorageError (κ × List E)) with
    | error error =>
      rw [reported, ran] at isPending
      cases isPending
    | ok result =>
      obtain ⟨after, pending⟩ := result
      have isReported : reported keyhive storage = pending := by rw [reported, ran]
      rw [isReported] at noLoss isPending separated
      have nonempty : storage.events.entries ≠ [] := by
        obtain ⟨hash, bytes, isEntry, -⟩ := stored
        exact List.ne_nil_of_mem (FinMap.mem_entries.mpr isEntry)
      obtain ⟨hash, bytes, isEntry, isEvent⟩ := (noLoss []).kept event isPending stored
      obtain ⟨before, isPendingHash⟩ := entry_of_compact_done ran nonempty isEntry
      obtain ⟨other, otherPending, sameHash⟩ := List.mem_map.mp isPendingHash
      have isOther : Bincode.serialize other = bytes :=
        separated (.inr ⟨other, otherPending, rfl⟩) (.inl ⟨hash, before⟩) sameHash
      rw [← isOther, deserialize_serialize] at isEvent
      obtain rfl : other = event := Option.some.inj isEvent
      exact ⟨hash, isOther ▸ before⟩
  · intro canonical outcomes
    have ends := noLoss_of_canonical storageId canonical ⟨storage, outcomes⟩ rfl
    cases isRun : Fallible.exec (compact E keyhive storageId) ⟨storage, outcomes⟩ with
    | mk result run =>
      rw [isRun] at ends
      cases result with
      | ok value => exact ends
      | error error => exact ends

end Compact

/-! ### A run on fixed inputs -/

/-- Events of one byte. -/
@[reducible] def byteEvents : Bincode UInt8 where
  serialize event := [event]
  deserialize bytes := bytes.head?
  deserialize_serialize _ _ := rfl

/-- A keyhive that takes events below 100; the others wait for something. -/
@[reducible] def smallEvents : ArchivedKeyhive (List UInt8) UInt8 where
  ingestArchive keyhive archive := .ok (keyhive ++ archive)
  ingestUnsortedStaticEvents keyhive events :=
    (keyhive ++ events.filter (· < 100), events.filter fun event => !decide (event < 100))
  intoArchive keyhive := keyhive
  Covers archive event := event ∈ archive
  covers_intoArchive keyhive events event member notPending := by
    refine List.mem_append_right _ (List.mem_filter.mpr ⟨member, ?_⟩)
    by_contra notSmall
    exact notPending (List.mem_filter.mpr ⟨member, by simpa using notSmall⟩)

attribute [local instance] IterOrder.ascending byteEvents lastBytes smallEvents

/-- **A pending event is deleted**: it was received with a byte behind it. -/
theorem pending_event_deleted :
    let storage := (KeyhiveStorage.empty.saveEventBytes [7]).saveEventBytes [200, 0]
    let run := (compact UInt8 ([] : List UInt8) ⟨1⟩).exec ⟨storage, []⟩
    (reported ([] : List UInt8) storage : List UInt8) = [200] ∧ run.1.toOption = some () ∧
      run.2.storage.archives.get? ⟨1⟩ = some [7] ∧ run.2.storage.events.keys = ∅ := by
  decide +kernel

/-- One event that is taken and one that is pending, as they are encoded. -/
def twoEvents : @KeyhiveStorage lastBytes :=
  (KeyhiveStorage.empty.saveEventBytes [7]).saveEventBytes [200]

theorem twoEvents_get? {hash : StorageHash} {bytes : List UInt8}
    (found : (@KeyhiveStorage.events lastBytes twoEvents).get? hash = some bytes) :
    bytes = [7] ∨ bytes = [200] := by
  have isInserted : ((FinMap.insert ∅ _ [7]).insert _ [200]).get? hash = some bytes := found
  rcases of_get?_insert isInserted with ⟨-, last⟩ | ⟨-, earlier⟩
  · exact .inr last
  · exact .inl ((of_get?_insert earlier).resolve_right fun none => nomatch none.2).2

theorem compact_keeps_pending_iff_twoEvents :
    (reported ([] : List UInt8) twoEvents : List UInt8) = [200] ∧ ∀ outcomes,
      NoLoss (List UInt8) twoEvents
        ((compact UInt8 ([] : List UInt8) ⟨1⟩).exec ⟨twoEvents, outcomes⟩).2.storage
        (reported ([] : List UInt8) twoEvents : List UInt8) := by
  have isReported : (reported ([] : List UInt8) twoEvents : List UInt8) = [200] := by decide +kernel
  refine ⟨isReported, (compact_keeps_pending_iff ([] : List UInt8) twoEvents ⟨1⟩ ?_).mpr ?_⟩
  · have among {bytes : List UInt8}
        (hashed : bytes ∈ hashedBytes twoEvents (reported ([] : List UInt8) twoEvents : List UInt8)) :
        bytes = [7] ∨ bytes = [200] := by
      rcases hashed with ⟨hash, found⟩ | ⟨event, isPending, rfl⟩
      · exact twoEvents_get? found
      · rw [isReported] at isPending
        rw [List.mem_singleton.mp isPending]
        exact .inr rfl
    intro first isFirst second isSecond same
    rcases among isFirst with rfl | rfl <;> rcases among isSecond with rfl | rfl
    · rfl
    · exact absurd same (by decide +kernel)
    · exact absurd same (by decide +kernel)
    · rfl
  · intro event isPending stored
    rw [isReported] at isPending
    rw [List.mem_singleton.mp isPending]
    exact ⟨hashEventBytes [200], FinMap.get?_insert_self _ _ _⟩

end Subduction
