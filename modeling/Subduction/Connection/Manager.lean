/-
**The connection manager.**

A command loop spawns a reader for every connection and then lists it. A reader takes a dispatch permit of
its peer for every request; the permit goes with the request through the queue and is given back when its
handler is done. When a reader ends, its task takes its entry from the list and sends a notice. The steps
of the loop, the tasks, the listener and the handlers come in any order.

* **`Manager.dispatch_capped`** — a peer never has more requests queued or handled than its permits.
* **`Manager.Tallied`** — what the list and the notices have of every task.
* **`Manager.exact_of_listed`** — the list is exact if no task cleans up before its entry is listed;
  **`stranded_entry`** — and else an entry may be left over.
-/

import Subduction.Connection.Message
import Subduction.Lib.Interleave
import Subduction.Lib.Permits

set_option linter.unusedSectionVars false

namespace Subduction

open List Option

/-- `MAX_INFLIGHT_DISPATCH_PER_PEER`. -/
def maxInflightDispatchPerPeer : Nat := 512

/-- Where a task is: its reader runs, without or with a permit for the message at hand, or has ended; then
its entry is removed; then its notice is sent. A task that was aborted is dropped. -/
inductive ReaderStage where
  | reading
  | enqueueing
  | ended
  | cleaned
  | closed
  | dropped
deriving DecidableEq

/-- `connection_loop` has not returned. -/
def ReaderStage.reads : ReaderStage → Bool
  | reading | enqueueing => true
  | _ => false

/-- An entry of the task list, without its abort handle. -/
structure TaskEntry (C : Type) where
  connId : Nat
  taskId : Nat
  conn : C
deriving DecidableEq

structure ReaderTask (C : Type) where
  connId : Nat
  conn : C
  peer : PeerId
  slots : Nat
  stage : ReaderStage
  aborted : Bool
deriving DecidableEq

namespace ReaderTask

variable {C : Type}

/-- The semaphore of the task's `connection_loop`. -/
def holder? (task : ReaderTask C) : Option (PeerId × Nat) :=
  if task.stage.reads then some (task.peer, task.slots) else none

/-- The permit that waits to be enqueued. -/
def permit? (task : ReaderTask C) : Option (PeerId × Nat) :=
  if task.stage = .enqueueing then some (task.peer, task.slots) else none

def Running (task : ReaderTask C) : Prop := task.stage.reads = true ∧ task.aborted = false

instance (task : ReaderTask C) : Decidable task.Running := inferInstanceAs (Decidable (_ ∧ _))

end ReaderTask

/-- **The manager with its tasks**, which are numbered from zero by `next_task_id`, the queue of requests
and the handlers. -/
structure Manager (C : Type) where
  nextConnectionId : Nat
  tasks : List (TaskEntry C)
  /-- the entry of a task that was spawned and is not yet listed -/
  unlisted : Option (TaskEntry C)
  spawned : List (ReaderTask C)
  dispatchRegistry : Permits PeerId
  messages : List (PeerId × Nat)
  handlers : List (PeerId × Nat)
  /-- the tasks whose connections were sent to `closed` -/
  notices : List Nat

inductive ManagerEvent (C : Type) where
  | add (conn : C) (peer : PeerId)
  | reAdd (connId : Nat) (conn : C) (peer : PeerId)
  | push
  | removeById (connId : Nat)
  | remove (conn : C)
  /-- the reader has a request and acquires a permit for it -/
  | acquire (task : Nat)
  | enqueue (task : Nat)
  | endReader (task : Nat)
  | cleanUp (task : Nat)
  | notify (task : Nat)
  /-- the runtime drops an aborted task -/
  | drop (task : Nat)
  /-- the listener takes a request, and spawns its handler or drops it -/
  | take (dispatch : Bool)
  | finish (handler : Nat)
deriving DecidableEq

/-- `Vec::swap_remove`. -/
def swapRemove {α : Type} (list : List α) (pos : Nat) : List α :=
  match list.getLast? with
  | none => []
  | some last => (list.set pos last).dropLast

theorem perm_swapRemove {α : Type} {list : List α} {pos : Nat} (inside : pos < list.length) :
    list.Perm (list[pos] :: swapRemove list pos) := by
  refine (getElem_cons_eraseIdx_perm inside).symm.trans (List.Perm.cons _ ?_)
  rcases eq_nil_or_concat list with rfl | ⟨front, last, rfl⟩
  · cases inside
  · rw [concat_eq_append] at inside ⊢
    rw [swapRemove, List.getLast?_concat]
    dsimp only
    rw [length_append, length_singleton] at inside
    by_cases isLast : pos < front.length
    · rw [eraseIdx_append_of_lt_length isLast, set_append_left _ _ isLast, dropLast_concat]
      exact (perm_append_singleton _ _).trans (set_perm_cons_eraseIdx isLast last).symm
    · obtain rfl : pos = front.length := by omega
      rw [eraseIdx_append_of_length_le (le_refl _), set_append_right _ _ (le_refl _), Nat.sub_self]
      simp

/-- The first entry that is meant, if there is one, and the others. -/
def removeEntry {C : Type} (isEntry : TaskEntry C → Bool) (tasks : List (TaskEntry C)) :
    Option (TaskEntry C) × List (TaskEntry C) :=
  match tasks.findIdx? isEntry with
  | none => (none, tasks)
  | some pos => (tasks[pos]?, swapRemove tasks pos)

theorem removeEntry_cases {C : Type} (isEntry : TaskEntry C → Bool) (tasks : List (TaskEntry C)) :
    (removeEntry isEntry tasks = (none, tasks) ∧ ∀ entry ∈ tasks, isEntry entry = false) ∨
      ∃ entry rest, removeEntry isEntry tasks = (some entry, rest) ∧ isEntry entry = true ∧
        tasks.Perm (entry :: rest) := by
  unfold removeEntry
  cases found : tasks.findIdx? isEntry with
  | none => exact Or.inl ⟨rfl, List.findIdx?_eq_none_iff.mp found⟩
  | some pos =>
    obtain ⟨inside, isOne, -⟩ := List.findIdx?_eq_some_iff_getElem.mp found
    refine Or.inr ⟨tasks[pos], swapRemove tasks pos, ?_, isOne, perm_swapRemove inside⟩
    dsimp only
    rw [List.getElem?_eq_getElem inside]

namespace Manager

variable {C : Type} [DecidableEq C]

def start : Manager C := ⟨0, [], none, [], ⟨∅, 0, fun _ => 0⟩, [], [], []⟩

section

variable (manager : Manager C)

/-- The semaphores of the running readers, and all permits. -/
def holders : List (PeerId × Nat) := manager.spawned.filterMap ReaderTask.holder?

def permits : List (PeerId × Nat) :=
  manager.messages ++ manager.handlers ++ manager.spawned.filterMap ReaderTask.permit?

/-- `slots_for`, and the spawn of a reader. -/
def spawn (connId : Nat) (conn : C) (peer : PeerId) : Manager C :=
  let (slots, registry) := manager.dispatchRegistry.slotsFor maxInflightDispatchPerPeer
    (manager.holders ++ manager.permits) peer
  { manager with
    unlisted := some ⟨connId, manager.spawned.length, conn⟩
    spawned := manager.spawned ++ [⟨connId, conn, peer, slots, .reading, false⟩]
    dispatchRegistry := registry }

/-- The task goes on. A reader that ends with a permit at hand gives it back. -/
def advance (id : Nat) (task : ReaderTask C) (stage : ReaderStage) : Manager C :=
  { manager with
    spawned := manager.spawned.set id { task with stage := stage }
    dispatchRegistry :=
      if task.stage = .enqueueing then manager.dispatchRegistry.release task.slots
      else manager.dispatchRegistry }

/-- `remove_connection_by_ref`, `remove_connection_by_id`: the first such entry, and its task. -/
def removeFirst (isEntry : TaskEntry C → Bool) : Manager C :=
  match removeEntry isEntry manager.tasks with
  | (none, _) => manager
  | (some entry, rest) => { manager with
      tasks := rest
      spawned := manager.spawned.modify entry.taskId fun task => { task with aborted := true } }

/-- The next command of a loop that waits for one. -/
def command (after : Manager C) : Manager C :=
  if manager.unlisted.isSome then manager else after

/-- The step of a task that is at a stage for it. -/
def taskStep (id : Nat) (ready : ReaderTask C → Bool)
    (after : ReaderTask C → Manager C) : Manager C :=
  match manager.spawned[id]? with
  | none => manager
  | some task => if ready task then after task else manager

/-- **One step.** -/
def step : ManagerEvent C → Manager C
  | .add conn peer => manager.command
      ({ manager with nextConnectionId := manager.nextConnectionId + 1 }.spawn manager.nextConnectionId conn peer)
  | .reAdd connId conn peer => manager.command (manager.spawn connId conn peer)
  | .push =>
    match manager.unlisted with
    | none => manager
    | some entry => { manager with tasks := manager.tasks ++ [entry], unlisted := none }
  | .removeById connId => manager.command (manager.removeFirst (·.connId = connId))
  | .remove conn => manager.command (manager.removeFirst (·.conn = conn))
  | .acquire id => manager.taskStep id
      (fun task => task.stage = .reading && 0 < manager.dispatchRegistry.free task.slots)
      fun task => { manager.advance id task .enqueueing with
        dispatchRegistry := manager.dispatchRegistry.acquire task.slots }
  | .enqueue id => manager.taskStep id (·.stage = .enqueueing) fun task =>
      { manager.advance id task .reading with
        dispatchRegistry := manager.dispatchRegistry
        messages := manager.messages ++ [(task.peer, task.slots)] }
  | .endReader id => manager.taskStep id (·.stage.reads) fun task => manager.advance id task .ended
  | .cleanUp id => manager.taskStep id (·.stage = .ended) fun task =>
      { manager.advance id task .cleaned with
        tasks := (removeEntry (·.taskId = id) manager.tasks).2 }
  | .notify id => manager.taskStep id (·.stage = .cleaned) fun task =>
      { manager.advance id task .closed with notices := manager.notices ++ [id] }
  | .drop id => manager.taskStep id (fun task => task.aborted && task.stage != .closed) fun task =>
      manager.advance id task .dropped
  | .take dispatch =>
    match manager.messages with
    | [] => manager
    | permit :: rest =>
      if dispatch then { manager with messages := rest, handlers := manager.handlers ++ [permit] }
      else { manager with
        messages := rest, dispatchRegistry := manager.dispatchRegistry.release permit.2 }
  | .finish handler =>
    match manager.handlers[handler]? with
    | none => manager
    | some permit => { manager with
        handlers := manager.handlers.eraseIdx handler
        dispatchRegistry := manager.dispatchRegistry.release permit.2 }

end

/-! ### The dispatch permits -/

theorem exists_perm_set {α : Type} {list : List α} {pos : Nat} {old : α} (found : list[pos]? = some old)
    (new : α) : ∃ rest, list.Perm (old :: rest) ∧ (list.set pos new).Perm (new :: rest) := by
  obtain ⟨inside, rfl⟩ := List.getElem?_eq_some_iff.mp found
  exact ⟨list.eraseIdx pos, (getElem_cons_eraseIdx_perm inside).symm,
    set_perm_cons_eraseIdx inside new⟩

variable {manager : Manager C} {id : Nat} {task next : ReaderTask C}

/-- **The invariant of the permits.** -/
def Capped (manager : Manager C) : Prop :=
  manager.dispatchRegistry.Sound maxInflightDispatchPerPeer manager.holders manager.permits

theorem holders_set_subset (found : manager.spawned[id]? = some task)
    (fewer : next.holder? = task.holder? ∨ next.holder? = none) :
    (manager.spawned.set id next).filterMap ReaderTask.holder? ⊆ manager.holders := by
  obtain ⟨rest, before, after⟩ := exists_perm_set found next
  intro holder member
  refine (before.filterMap _).mem_iff.mpr ?_
  have member := (after.filterMap _).mem_iff.mp member
  rcases fewer with same | none
  · rwa [filterMap_cons, ← same, ← filterMap_cons]
  · rw [filterMap_cons_none none] at member
    rw [filterMap_cons]
    split
    · exact member
    · exact mem_cons_of_mem _ member

theorem permits_set (found : manager.spawned[id]? = some task) (next : ReaderTask C) :
    ∃ rest, (manager.spawned.filterMap ReaderTask.permit?).Perm (task.permit?.toList ++ rest) ∧
      ((manager.spawned.set id next).filterMap ReaderTask.permit?).Perm (next.permit?.toList ++ rest) := by
  obtain ⟨rest, before, after⟩ := exists_perm_set found next
  have split (one : ReaderTask C) : (one :: rest).filterMap ReaderTask.permit? =
      one.permit?.toList ++ rest.filterMap ReaderTask.permit? := by
    rw [filterMap_cons]
    cases one.permit? <;> rfl
  refine ⟨rest.filterMap ReaderTask.permit?, ?_, ?_⟩
  · rw [← split]
    exact before.filterMap _
  · rw [← split]
    exact after.filterMap _

theorem Capped.advance (capped : manager.Capped) (found : manager.spawned[id]? = some task)
    (stage : ReaderStage) (ends : stage.reads = false) : (manager.advance id task stage).Capped := by
  let next : ReaderTask C := { task with stage := stage }
  have noHolder : next.holder? = none := by simp [next, ReaderTask.holder?, ends]
  have noPermit : next.permit? = none := by
    refine if_neg fun same => ?_
    rw [show stage = .enqueueing from same] at ends
    cases ends
  obtain ⟨rest, before, after⟩ := permits_set found next
  rw [noPermit] at after
  have subset := holders_set_subset found (Or.inr noHolder)
  have moved := after.symm.append_left (manager.messages ++ manager.handlers)
  have gathered := before.append_left (manager.messages ++ manager.handlers)
  unfold Capped Manager.advance
  dsimp only
  by_cases isHeld : task.stage = .enqueueing
  · rw [if_pos isHeld]
    rw [show task.permit? = some (task.peer, task.slots) from if_pos isHeld] at gathered
    exact (capped.release (gathered.trans perm_middle)).congr subset moved
  · rw [if_neg isHeld]
    rw [show task.permit? = none from if_neg isHeld] at gathered
    exact capped.congr subset (gathered.trans moved)

theorem Capped.spawn (capped : manager.Capped) (connId : Nat) (conn : C) (peer : PeerId) :
    (manager.spawn connId conn peer).Capped := by
  have sound := Permits.Sound.slotsFor capped peer
  unfold Capped Manager.spawn Manager.holders Manager.permits
  refine sound.congr ?_ ?_
  · intro holder member
    rw [filterMap_append] at member
    rcases mem_append.mp member with member | member
    · exact mem_cons_of_mem _ member
    · exact mem_cons.mpr (Or.inl (mem_singleton.mp member))
  · rw [filterMap_append]
    simp [Manager.permits, ReaderTask.permit?]

theorem Capped.removeFirst (capped : manager.Capped) (isEntry : TaskEntry C → Bool) :
    (manager.removeFirst isEntry).Capped := by
  have same {β : Type} (view : ReaderTask C → Option β)
      (blind : ∀ task, view { task with aborted := true } = view task) (id : Nat) (tasks : List (ReaderTask C)) :
      (tasks.modify id fun task => { task with aborted := true }).filterMap view = tasks.filterMap view := by
    induction tasks generalizing id with
    | nil => cases id <;> rfl
    | cons head rest ih =>
      cases id with
      | zero =>
        rw [modify_zero_cons, filterMap_cons, filterMap_cons, blind]
      | succ id =>
        rw [modify_succ_cons, filterMap_cons, filterMap_cons, ih]
  rcases removeEntry_cases isEntry manager.tasks with ⟨result, -⟩ | ⟨entry, rest, result, -, -⟩
  · rw [Manager.removeFirst, result]
    exact capped
  · rw [Manager.removeFirst, result]
    unfold Capped Manager.holders Manager.permits
    dsimp only
    rw [same _ (fun _ => rfl), same _ (fun _ => rfl)]
    exact capped

theorem command_keeps {holds : Manager C → Prop} (before : holds manager) {after : Manager C}
    (goes : manager.unlisted = none → holds after) : holds (manager.command after) := by
  unfold command
  cases waits : manager.unlisted with
  | some entry => exact before
  | none => exact goes waits

theorem taskStep_keeps {holds : Manager C → Prop} (before : holds manager) {ready : ReaderTask C → Bool}
    {after : ReaderTask C → Manager C}
    (goes : ∀ task, manager.spawned[id]? = some task → ready task = true → holds (after task)) :
    holds (manager.taskStep id ready after) := by
  unfold taskStep
  cases found : manager.spawned[id]? with
  | none => exact before
  | some task =>
    dsimp only
    by_cases isReady : ready task = true
    · rw [if_pos isReady]
      exact goes task found isReady
    · rw [if_neg isReady]
      exact before

theorem Capped.acquire (capped : manager.Capped) (found : manager.spawned[id]? = some task)
    (reads : task.stage = .reading) (isFree : 0 < manager.dispatchRegistry.free task.slots) :
    Capped { manager.advance id task .enqueueing with
      dispatchRegistry := manager.dispatchRegistry.acquire task.slots } := by
  have isHolder : task.holder? = some (task.peer, task.slots) := by simp [ReaderTask.holder?, reads, ReaderStage.reads]
  have holds : (task.peer, task.slots) ∈ manager.holders :=
    mem_filterMap.mpr ⟨task, mem_of_getElem? found, isHolder⟩
  obtain ⟨rest, before, after⟩ := permits_set found { task with stage := .enqueueing }
  rw [show task.permit? = none by simp [ReaderTask.permit?, reads]] at before
  have gathered := before.append_left (manager.messages ++ manager.handlers)
  refine (Permits.Sound.acquire capped holds isFree).congr (holders_set_subset found (Or.inl ?_)) ?_
  · rw [isHolder]
    rfl
  · refine ((gathered.cons _).trans perm_middle.symm).trans ?_
    exact after.symm.append_left (manager.messages ++ manager.handlers)

theorem Capped.enqueue (capped : manager.Capped) (found : manager.spawned[id]? = some task)
    (isHeld : task.stage = .enqueueing) :
    Capped { manager.advance id task .reading with
      dispatchRegistry := manager.dispatchRegistry
      messages := manager.messages ++ [(task.peer, task.slots)] } := by
  obtain ⟨rest, before, after⟩ := permits_set found { task with stage := .reading }
  rw [show task.permit? = some (task.peer, task.slots) from if_pos isHeld] at before
  refine capped.congr (holders_set_subset found (Or.inl ?_)) ?_
  · simp [ReaderTask.holder?, isHeld, ReaderStage.reads]
  · have gathered := before.append_left (manager.messages ++ manager.handlers)
    have moved := after.symm.append_left (manager.messages ++ [(task.peer, task.slots)] ++ manager.handlers)
    refine gathered.trans (List.Perm.trans ?_ moved)
    simp only [Option.toList, append_assoc, singleton_append, ReaderTask.permit?]
    exact (perm_middle.append_left _)

theorem Capped.step (capped : manager.Capped) (event : ManagerEvent C) : (manager.step event).Capped := by
  cases event with
  | add conn peer => exact command_keeps capped fun _ => Capped.spawn capped _ conn peer
  | reAdd connId conn peer => exact command_keeps capped fun _ => capped.spawn connId conn peer
  | push =>
    simp only [Manager.step]
    cases manager.unlisted with
    | none => exact capped
    | some entry => exact capped
  | removeById connId => exact command_keeps capped fun _ => capped.removeFirst _
  | remove conn => exact command_keeps capped fun _ => capped.removeFirst _
  | acquire id =>
    refine taskStep_keeps capped fun task found ready => ?_
    rw [Bool.and_eq_true, decide_eq_true_iff, decide_eq_true_iff] at ready
    exact capped.acquire found ready.1 ready.2
  | enqueue id =>
    exact taskStep_keeps capped fun task found ready => capped.enqueue found (of_decide_eq_true ready)
  | endReader id => exact taskStep_keeps capped fun task found _ => capped.advance found _ rfl
  | cleanUp id => exact taskStep_keeps capped fun task found _ => capped.advance found .cleaned rfl
  | notify id => exact taskStep_keeps capped fun task found _ => capped.advance found .closed rfl
  | drop id => exact taskStep_keeps capped fun task found _ => capped.advance found _ rfl
  | take dispatch =>
    simp only [Manager.step]
    cases queued : manager.messages with
    | nil => exact capped
    | cons permit rest =>
      have isHead : manager.permits = permit :: (rest ++ manager.handlers ++
          manager.spawned.filterMap ReaderTask.permit?) := by simp [permits, queued]
      cases dispatch with
      | true =>
        refine capped.congr (List.Subset.refl _) ?_
        rw [isHead]
        show (permit :: _).Perm (rest ++ (manager.handlers ++ [permit]) ++ _)
        rw [append_assoc rest, append_assoc rest, append_assoc manager.handlers]
        exact (perm_middle.symm.trans (perm_middle.symm.append_left rest))
      | false => exact capped.release (isHead ▸ List.Perm.refl _)
  | finish handler =>
    simp only [Manager.step]
    cases found : manager.handlers[handler]? with
    | none => exact capped
    | some permit =>
      obtain ⟨inside, rfl⟩ := List.getElem?_eq_some_iff.mp found
      have taken := (getElem_cons_eraseIdx_perm inside).symm
      exact capped.release (((taken.append_left _).trans perm_middle).append_right _)

/-- The semaphore is held for the peer, by a reader or through a permit. -/
def Live (manager : Manager C) (peer : PeerId) (slots : Nat) : Prop :=
  (peer, slots) ∈ manager.holders ++ manager.permits

theorem dispatch_capped (events : List (ManagerEvent C)) (peer : PeerId) :
    let manager := events.foldl step start
    (manager.messages ++ manager.handlers).countP (·.1 = peer) ≤ maxInflightDispatchPerPeer ∧
      ∀ slots, manager.Live peer slots → manager.dispatchRegistry.weak.get? peer = some slots := by
  have capped : Capped (events.foldl step start) := by
    induction events using List.reverseRecOn with
    | nil => exact Permits.sound_empty _
    | append_singleton events event ih =>
      rw [List.foldl_append]
      exact ih.step event
  refine ⟨?_, fun slots held => capped.found peer slots held⟩
  refine le_trans ?_ (capped.countP_le peer)
  exact (List.sublist_append_left _ _).countP_le

/-! ### The task list -/

def entries (manager : Manager C) : List (TaskEntry C) := manager.tasks ++ manager.unlisted.toList

/-- The entries that the task should have. -/
def owed (task : ReaderTask C) : Nat :=
  if task.aborted = false ∧ (task.stage.reads = true ∨ task.stage = .ended) then 1 else 0

def sent (task : ReaderTask C) : Nat := if task.stage = .closed then 1 else 0

/-- **What the list and the notices have of every task.** -/
structure Tally (spawned : List (ReaderTask C)) (entries : List (TaskEntry C)) (notices : List Nat) : Prop where
  listed : ∀ id, entries.countP (·.taskId = id) = (spawned[id]?).elim 0 owed
  noticed : ∀ id, notices.count id = (spawned[id]?).elim 0 sent
  named : ∀ entry ∈ entries, ∃ task, spawned[entry.taskId]? = some task ∧
    entry.connId = task.connId ∧ entry.conn = task.conn

def Tallied (manager : Manager C) : Prop := Tally manager.spawned manager.entries manager.notices

section Tally

variable {spawned : List (ReaderTask C)} {entries fewer : List (TaskEntry C)} {notices more : List Nat}
  {stage : ReaderStage} {aborted : Bool}

variable (tally : Tally spawned entries notices) (found : spawned[id]? = some task)

include tally found

theorem Tally.set (subset : fewer ⊆ entries)
    (listed : ∀ other, fewer.countP (·.taskId = other) = if other = id
      then owed { task with stage := stage, aborted := aborted } else entries.countP (·.taskId = other))
    (noticed : ∀ other, more.count other = if other = id
      then sent { task with stage := stage, aborted := aborted } else notices.count other) :
    Tally (spawned.set id { task with stage := stage, aborted := aborted }) fewer more := by
  have inside := (List.getElem?_eq_some_iff.mp found).1
  refine ⟨fun other => ?_, fun other => ?_, fun entry member => ?_⟩
  · rw [listed]
    by_cases isTask : other = id
    · rw [if_pos isTask, isTask, List.getElem?_set_self inside, elim_some]
    · rw [if_neg isTask, List.getElem?_set_ne (Ne.symm isTask), tally.listed]
  · rw [noticed]
    by_cases isTask : other = id
    · rw [if_pos isTask, isTask, List.getElem?_set_self inside, elim_some]
    · rw [if_neg isTask, List.getElem?_set_ne (Ne.symm isTask), tally.noticed]
  · obtain ⟨one, isOne, same⟩ := tally.named entry (subset member)
    by_cases isTask : entry.taskId = id
    · rw [isTask, found] at isOne
      cases isOne
      rw [isTask, List.getElem?_set_self inside]
      exact ⟨_, rfl, same⟩
    · rw [List.getElem?_set_ne (Ne.symm isTask)]
      exact ⟨one, isOne, same⟩

theorem Tally.noticed_set (sends : sent next = sent task) (other : Nat) :
    notices.count other = if other = id then sent next else notices.count other := by
  split
  · rename_i isTask
    rw [isTask, tally.noticed, found, sends, elim_some]
  · rfl

theorem Tally.quiet (owes : owed { task with stage := stage } = owed task)
    (noticed : ∀ other, more.count other = if other = id
      then sent { task with stage := stage } else notices.count other) :
    Tally (spawned.set id { task with stage := stage }) entries more := by
  refine tally.set found (List.Subset.refl _) (fun other => ?_) noticed
  split
  · rename_i isTask
    rw [owes, isTask, tally.listed, found, elim_some]
  · rfl

theorem Tally.unlist {entry : TaskEntry C} (perm : entries.Perm (entry :: fewer)) (isEntry : entry.taskId = id)
    (owes : owed { task with stage := stage, aborted := aborted } = 0)
    (sends : sent { task with stage := stage, aborted := aborted } = sent task) :
    Tally (spawned.set id { task with stage := stage, aborted := aborted }) fewer notices := by
  refine tally.set found (fun one member => ?_) (fun other => ?_) (tally.noticed_set found sends)
  · exact perm.mem_iff.mpr (mem_cons_of_mem _ member)
  · have whole := tally.listed other
    rw [perm.countP_eq, countP_cons, isEntry] at whole ⊢
    split
    · rename_i isTask
      subst isTask
      have most : owed task ≤ 1 := by
        unfold owed
        split <;> decide
      rw [found, elim_some, if_pos (decide_eq_true rfl)] at whole
      omega
    · rename_i isOther
      rw [if_neg (by simpa using Ne.symm isOther), Nat.add_zero]

end Tally

theorem Tallied.cleanUp (tallied : manager.Tallied) (found : manager.spawned[id]? = some task)
    (isEnded : task.stage = .ended) (isListed : ∀ entry ∈ manager.unlisted, entry.taskId ≠ id) :
    Tallied { manager.advance id task .cleaned with
      tasks := (removeEntry (·.taskId = id) manager.tasks).2 } := by
  have owesNone : owed { task with stage := .cleaned } = 0 := by simp [owed, ReaderStage.reads]
  have sends : sent { task with stage := .cleaned } = sent task := by simp [sent, isEnded]
  rcases removeEntry_cases (fun entry : TaskEntry C => decide (entry.taskId = id)) manager.tasks with
    ⟨result, absent⟩ | ⟨entry, rest, result, isEntry, perm⟩
  · rw [result]
    refine Tally.quiet tallied found (owesNone.trans ?_) (tallied.noticed_set found sends)
    have whole := tallied.listed id
    rw [found, elim_some] at whole
    rw [← whole, eq_comm, countP_eq_zero]
    intro entry member same
    rcases mem_append.mp member with member | member
    · rw [absent entry member] at same
      cases same
    · exact isListed entry (mem_toList.mp member) (of_decide_eq_true same)
  · rw [result]
    exact Tally.unlist tallied found (perm.append_right _) (of_decide_eq_true isEntry) owesNone sends

theorem Tallied.removeFirst (tallied : manager.Tallied) (isEntry : TaskEntry C → Bool) :
    (manager.removeFirst isEntry).Tallied := by
  rcases removeEntry_cases isEntry manager.tasks with ⟨result, -⟩ | ⟨entry, rest, result, -, perm⟩
  · rw [Manager.removeFirst, result]
    exact tallied
  · obtain ⟨task, found, -⟩ := tallied.named entry
      (mem_append_left _ (perm.mem_iff.mpr mem_cons_self))
    have modified : (manager.spawned.modify entry.taskId fun task => { task with aborted := true }) =
        manager.spawned.set entry.taskId { task with aborted := true } := by
      refine ext_getElem? fun other => ?_
      rw [List.getElem?_modify, List.getElem?_set]
      split
      · rename_i isTask
        rw [if_pos (List.getElem?_eq_some_iff.mp found).1, ← isTask, found]
        rfl
      · exact id_map _
    rw [Manager.removeFirst, result]
    unfold Tallied
    dsimp only
    rw [modified]
    exact Tally.unlist tallied found (perm.append_right _) rfl (by simp [owed]) rfl

theorem Tallied.spawn (tallied : manager.Tallied) (waits : manager.unlisted = none) (connId : Nat) (conn : C)
    (peer : PeerId) : (manager.spawn connId conn peer).Tallied := by
  unfold Tallied entries at tallied
  rw [waits, toList_none, append_nil] at tallied
  have later {id : Nat} (less : id < manager.spawned.length) (new : ReaderTask C) :
      (manager.spawned ++ [new])[id]? = manager.spawned[id]? := List.getElem?_append_left less
  refine ⟨fun id => ?_, fun id => ?_, fun entry member => ?_⟩
  · show (manager.tasks ++ [_]).countP _ = ((manager.spawned ++ [_])[id]?).elim 0 owed
    rw [countP_append, tallied.listed]
    rcases Nat.lt_trichotomy id manager.spawned.length with less | rfl | more
    · rw [later less]
      simp [Nat.ne_of_gt less]
    · simp [owed, ReaderStage.reads]
    · rw [List.getElem?_eq_none more.le, List.getElem?_eq_none (by simpa using more)]
      simp [Nat.ne_of_lt more]
  · show manager.notices.count id = ((manager.spawned ++ [_])[id]?).elim 0 sent
    rw [tallied.noticed]
    rcases Nat.lt_trichotomy id manager.spawned.length with less | rfl | more
    · rw [later less]
    · simp [sent]
    · rw [List.getElem?_eq_none more.le, List.getElem?_eq_none (by simpa using more)]
  · rcases mem_append.mp member with member | member
    · obtain ⟨task, found, same⟩ := tallied.named entry member
      exact ⟨task, (later (List.getElem?_eq_some_iff.mp found).1 _).trans found, same⟩
    · obtain rfl := mem_singleton.mp member
      exact ⟨_, List.getElem?_concat_length, rfl, rfl⟩

/-- No task cleans up before its entry is listed. -/
def Listed (manager : Manager C) (event : ManagerEvent C) : Prop :=
  ∀ entry ∈ manager.unlisted, event ≠ .cleanUp entry.taskId

instance (manager : Manager C) (event : ManagerEvent C) : Decidable (manager.Listed event) :=
  inferInstanceAs (Decidable (∀ entry ∈ manager.unlisted, event ≠ .cleanUp entry.taskId))

theorem Tallied.step (tallied : manager.Tallied) (event : ManagerEvent C) (isListed : manager.Listed event) :
    (manager.step event).Tallied := by
  cases event with
  | add conn peer =>
    have counted : Tallied { manager with nextConnectionId := manager.nextConnectionId + 1 } := tallied
    exact command_keeps tallied fun waits => counted.spawn waits _ conn peer
  | reAdd connId conn peer => exact command_keeps tallied fun waits => tallied.spawn waits connId conn peer
  | push =>
    simp only [Manager.step]
    cases waiting : manager.unlisted with
    | none => exact tallied
    | some entry =>
      unfold Tallied entries at tallied ⊢
      rw [waiting] at tallied
      rwa [toList_none, append_nil]
  | removeById connId => exact command_keeps tallied fun _ => tallied.removeFirst _
  | remove conn => exact command_keeps tallied fun _ => tallied.removeFirst _
  | acquire id =>
    refine taskStep_keeps tallied fun task found ready => ?_
    have reads := of_decide_eq_true (Bool.and_eq_true_iff.mp ready).1
    exact Tally.quiet tallied found (by simp [owed, reads, ReaderStage.reads])
      (tallied.noticed_set found (by simp [sent, reads]))
  | enqueue id =>
    refine taskStep_keeps tallied fun task found ready => ?_
    have isHeld := of_decide_eq_true ready
    exact Tally.quiet tallied found (by simp [owed, isHeld, ReaderStage.reads])
      (tallied.noticed_set found (by simp [sent, isHeld]))
  | endReader id =>
    refine taskStep_keeps tallied fun task found reads => ?_
    have notClosed : task.stage ≠ .closed := fun closed => by simp [closed, ReaderStage.reads] at reads
    exact Tally.quiet tallied found (by simp [owed, reads])
      (tallied.noticed_set found (by simp [sent, notClosed]))
  | cleanUp id =>
    refine taskStep_keeps tallied fun task found ready => tallied.cleanUp found (of_decide_eq_true ready) ?_
    exact fun entry waiting same => isListed entry waiting (congrArg ManagerEvent.cleanUp same.symm)
  | notify id =>
    refine taskStep_keeps tallied fun task found ready => ?_
    have isCleaned := of_decide_eq_true ready
    refine Tally.quiet tallied found (by simp [owed, isCleaned, ReaderStage.reads]) fun other => ?_
    rw [count_append, tallied.noticed]
    split
    · rename_i isTask
      rw [isTask, found]
      simp [sent, isCleaned]
    · rename_i isOther
      simp [Ne.symm isOther]
  | drop id =>
    refine taskStep_keeps tallied fun task found ready => ?_
    obtain ⟨aborted, notClosed⟩ := Bool.and_eq_true_iff.mp ready
    exact Tally.quiet tallied found (by simp [owed, aborted])
      (tallied.noticed_set found (by simp [sent, bne_iff_ne.mp notClosed]))
  | take dispatch =>
    simp only [Manager.step]
    cases manager.messages with
    | nil => exact tallied
    | cons permit rest => cases dispatch <;> exact tallied
  | finish handler =>
    simp only [Manager.step]
    cases manager.handlers[handler]? with
    | none => exact tallied
    | some permit => exact tallied

/-- **The list is exact**: when the loop waits and every task that was not removed reads or has sent its
notice, the entries are those of the running readers, and every other task has sent one notice. -/
def Exact (manager : Manager C) : Prop :=
  manager.unlisted = none →
  (∀ task ∈ manager.spawned, task.aborted = false → task.stage.reads = true ∨ task.stage = .closed) →
  (∀ entry ∈ manager.tasks, ∃ task, manager.spawned[entry.taskId]? = some task ∧
    entry.connId = task.connId ∧ entry.conn = task.conn) ∧
  ∀ id task, manager.spawned[id]? = some task →
    manager.tasks.countP (·.taskId = id) = (if task.Running then 1 else 0) ∧
      (task.aborted = false → ¬ task.Running → manager.notices.count id = 1)

/-- **The list is exact in every run in which each task is listed before it cleans up.** -/
theorem exact_of_listed (events : List (ManagerEvent C)) (listed : Along step Listed start events) :
    (events.foldl step start).Exact := by
  have tallied : Tallied (events.foldl step start) :=
    listed.keeps (fun _ event tallied isListed => tallied.step event isListed)
      ⟨fun _ => rfl, fun _ => rfl, fun _ member => absurd member List.not_mem_nil⟩
  intro waits settled
  unfold Tallied entries at tallied
  rw [waits, Option.toList_none, List.append_nil] at tallied
  refine ⟨tallied.named, fun id task found => ⟨?_, fun stays stopped => ?_⟩⟩
  · rw [tallied.listed, found, Option.elim_some, owed]
    refine if_congr ⟨fun owes => ⟨?_, owes.1⟩, fun runs => ⟨runs.2, Or.inl runs.1⟩⟩ rfl rfl
    rcases settled task (List.mem_of_getElem? found) owes.1 with reads | closed
    · exact reads
    · rcases owes.2 with reads | isEnded
      · exact reads
      · rw [closed] at isEnded
        cases isEnded
  · rcases settled task (List.mem_of_getElem? found) stays with reads | closed
    · exact absurd ⟨reads, stays⟩ stopped
    · rw [tallied.noticed, found, Option.elim_some, sent, if_pos closed]

theorem exact_of_listed_twice :
    let events : List (ManagerEvent Nat) := [.add 4 ⟨1⟩, .push, .endReader 0, .cleanUp 0, .notify 0,
      .reAdd 0 5 ⟨1⟩, .endReader 1, .push]
    Along step Listed start events ∧ (events.foldl step start).Exact :=
  ⟨by decide, exact_of_listed _ (by decide)⟩

/-- **An entry is stranded**: the reader ends and its task cleans up before the loop lists it. -/
theorem stranded_entry :
    let manager := ([.add 4 ⟨1⟩, .endReader 0, .cleanUp 0, .push, .notify 0] : List (ManagerEvent Nat)).foldl
      step start
    manager.unlisted = none ∧ (manager.spawned.map ReaderTask.stage) = [.closed] ∧
      manager.tasks = [⟨0, 0, 4⟩] ∧ ¬ manager.Exact := by
  refine ⟨by decide, by decide, by decide, fun exact => ?_⟩
  have none := ((exact (by decide) (by decide)).2 0 _ rfl).1
  exact absurd none (by decide)

end Manager

end Subduction
