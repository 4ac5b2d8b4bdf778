/-
**The operations of a node as tasks.**

The operations on the resident trees are asynchronous: between two awaits other operations run, and a
tree can be evicted. A lookup loads on a miss with no lock held, in two steps, and installs what it
loaded in a later one, unless a tree is resident by then. A step is one effect on the node and a state
in which the task goes on.

* **`Task.next_kind`** — what a step can do.
* **`advance_getOrHydrate`**, **`advance_insertLocally`** — a read and an insert that nothing
  interrupts are those of the sequential model.
-/

import Subduction.Core.Minimize
import Subduction.Lib.Interleave
import Subduction.Node.Ingest

set_option linter.unusedSectionVars false

namespace Subduction

open ItemStore List Function

/-! ### What a tree is made from -/

/-- The commits and the fragments that a tree is made from. -/
structure Content where
  commits : List LooseCommit
  fragments : List Fragment
deriving DecidableEq

namespace Content

def isEmpty (content : Content) : Bool := content.commits.isEmpty && content.fragments.isEmpty

def Has (content : Content) : Item → Prop
  | .commit commit => commit ∈ content.commits
  | .fragment fragment => fragment ∈ content.fragments

instance (content : Content) : ∀ item, Decidable (content.Has item)
  | .commit commit => inferInstanceAs (Decidable (commit ∈ content.commits))
  | .fragment fragment => inferInstanceAs (Decidable (fragment ∈ content.fragments))

instance (content : Content) (holds : Item → Prop) [∀ item, Decidable (holds item)] :
    Decidable (∀ item, content.Has item → holds item) :=
  decidable_of_iff ((∀ commit ∈ content.commits, holds (.commit commit)) ∧
      ∀ fragment ∈ content.fragments, holds (.fragment fragment))
    ⟨fun both item => match item with
      | .commit commit => both.1 commit
      | .fragment fragment => both.2 fragment,
    fun each => ⟨fun commit => each (.commit commit), fun fragment => each (.fragment fragment)⟩⟩

def give (content : Content) : Item → Content
  | .commit commit => { content with commits := content.commits ++ [commit] }
  | .fragment fragment => { content with fragments := content.fragments ++ [fragment] }

theorem has_give {content : Content} {item other : Item} :
    (content.give item).Has other ↔ content.Has other ∨ other = item := by
  cases item <;> cases other <;> simp [give, Has]

theorem not_has_of_isEmpty {content : Content} (empty : content.isEmpty = true) (item : Item) :
    ¬ content.Has item := by
  obtain ⟨commits, fragments⟩ := content
  simp only [isEmpty, Bool.and_eq_true, List.isEmpty_iff] at empty
  cases item <;> simp [Has, empty]

variable [IterOrder CommitId]

/-- The first item of every head, in the order of a map. -/
def firstPerHead {α : Type} [Headed α] (items : List α) : List α :=
  (items.foldl (fun byId item => byId.orInsert (Headed.head item) item)
    (∅ : FinMap CommitId α)).values

/-- First-loaded-wins, for the commits and for the fragments. -/
def dedupe (content : Content) : Content :=
  ⟨firstPerHead content.commits, firstPerHead content.fragments⟩

theorem mem_of_mem_firstPerHead {α : Type} [Headed α] {items : List α} {item : α}
    (first : item ∈ firstPerHead items) : item ∈ items := by
  obtain ⟨head, found⟩ := FinMap.mem_values.mp first
  suffices keeps : ∀ (rest : List α) (byId : FinMap CommitId α),
      (rest.foldl (fun byId item => byId.orInsert (Headed.head item) item) byId).get? head = some item →
        byId.get? head = some item ∨ item ∈ rest by
    exact (keeps items ∅ found).resolve_left (by simp)
  intro rest
  induction rest with
  | nil => exact fun byId found => Or.inl found
  | cons next rest ih =>
    intro byId found
    rcases ih _ found with earlier | later
    · rw [FinMap.get?_orInsert] at earlier
      by_cases same : head = Headed.head next
      · rw [if_pos same] at earlier
        cases old : byId.get? (Headed.head next) with
        | none =>
          rw [old, Option.getD_none] at earlier
          rw [← Option.some.inj earlier]
          exact Or.inr mem_cons_self
        | some kept =>
          rw [old, Option.getD_some] at earlier
          rw [same, old, Option.some.inj earlier]
          exact Or.inl rfl
      · rw [if_neg same] at earlier
        exact Or.inl earlier
    · exact Or.inr (mem_cons_of_mem _ later)

theorem has_of_has_dedupe {content : Content} {item : Item} (first : content.dedupe.Has item) :
    content.Has item := by
  cases item with
  | commit commit => exact mem_of_mem_firstPerHead first
  | fragment fragment => exact mem_of_mem_firstPerHead first

variable [Blake3] [Bijou64]

def tree (content : Content) : Sedimentree := .new content.fragments content.commits

theorem has_of_has_tree {content : Content} {item : Item} (has : content.tree.Has item) :
    content.Has item := by
  cases item with
  | commit commit => exact Shelf.mem_of_get?_ofList has
  | fragment fragment => exact Shelf.mem_of_get?_ofList has

end Content

section Items

variable [Blake3] [Bijou64Codec]

inductive VerifiedItem where
  | commit (verified : VerifiedMeta LooseCommit)
  | fragment (verified : VerifiedMeta Fragment)

def VerifiedItem.item : VerifiedItem → Item
  | commit verified => .commit verified.payload
  | fragment verified => .fragment verified.payload

/-- `save_commit` or `save_fragment`. -/
def VerifiedItem.save (item : VerifiedItem) (id : SedimentreeId) (storage : MemoryStorage) :
    MemoryStorage :=
  match item with
  | .commit verified => storage.saveLooseCommit id verified
  | .fragment verified => storage.saveFragment id verified

theorem VerifiedItem.has_save {item : VerifiedItem} {id other : SedimentreeId}
    {storage : MemoryStorage} {found : Item} (has : (item.save id storage).Has other found) :
    storage.Has other found ∨ (other = id ∧ found = item.item) := by
  cases item with
  | commit verified =>
    cases found with
    | commit payload =>
      exact (ItemStore.has_save has).imp_right (And.imp_right (congrArg Item.commit))
    | fragment payload => exact Or.inl has
  | fragment verified =>
    cases found with
    | commit payload => exact Or.inl has
    | fragment payload =>
      exact (ItemStore.has_save has).imp_right (And.imp_right (congrArg Item.fragment))

theorem MemoryStorage.Has.save {id other : SedimentreeId} {storage : MemoryStorage} {found : Item}
    (has : storage.Has other found) (item : VerifiedItem) : (item.save id storage).Has other found := by
  cases item with
  | commit verified =>
    cases found with
    | commit payload => exact ItemStore.Has.save has id verified
    | fragment payload => exact has
  | fragment verified =>
    cases found with
    | commit payload => exact has
    | fragment payload => exact ItemStore.Has.save has id verified

/-- `add_commit` or `add_fragment`. -/
def Item.addTo (item : Item) (owner : MinimizedSedimentree) : MinimizedSedimentree :=
  match item with
  | .commit payload => (owner.addCommit payload).1
  | .fragment payload => (owner.addFragment payload).1

theorem Content.tree_give [IterOrder CommitId] (content : Content) (item : Item)
    (dirty : Bool) : item.addTo ⟨content.tree, dirty⟩ = .new (content.give item).tree := by
  unfold MinimizedSedimentree.new Content.tree Sedimentree.new Shelf.ofList
  cases item with
  | commit payload =>
    show (⟨⟨_, (Shelf.add _ payload).1⟩, true⟩ : MinimizedSedimentree) = _
    rw [Shelf.add_fst, Content.give, foldl_append]
    rfl
  | fragment payload =>
    show (⟨⟨(Shelf.add _ payload).1, _⟩, true⟩ : MinimizedSedimentree) = _
    rw [Shelf.add_fst, Content.give, foldl_append]
    rfl

end Items

/-! ### Tasks -/

variable [Blake3] [Bijou64Codec] [IterOrder CommitId]

/-- What a lookup is for. A batch-sync request scans both tables at once, so either scan can be the
first to read. -/
inductive Purpose where
  | getOrHydrate
  | batchSyncRequest (fragmentsFirst : Bool)
  | newness (verified : VerifiedItem)
  | add (verified : VerifiedItem)

/-- The fragments are read before the commits. -/
def Purpose.fragmentsFirst : Purpose → Bool
  | batchSyncRequest fragmentsFirst => fragmentsFirst
  | _ => false

/-- **Where an operation stands.** -/
inductive Task where
  | headsOrHydrate
  | lookUp (purpose : Purpose)
  | load (purpose : Purpose)
  | loadFragments (purpose : Purpose) (commits : List LooseCommit)
  | loadLooseCommits (purpose : Purpose) (fragments : List Fragment)
  | loaded (purpose : Purpose) (content : Content)
  | containsSedimentreeId
  | installEmpty
  | save (verified : VerifiedItem)
  | removeSedimentree
  | deleteLooseCommits
  | deleteFragments
  | deleteSedimentreeId
  | done

inductive Operation where
  | getOrHydrate
  | headsOrHydrate
  | recvBatchSyncRequest (fragmentsFirst : Bool)
  | insertLocally (verified : VerifiedItem)
  | removeSedimentree

def Operation.begin : Operation → Task
  | getOrHydrate => .lookUp .getOrHydrate
  | headsOrHydrate => .headsOrHydrate
  | recvBatchSyncRequest fragmentsFirst => .lookUp (.batchSyncRequest fragmentsFirst)
  | insertLocally verified => .lookUp (.newness verified)
  | removeSedimentree => .removeSedimentree

/-- **What a step does** to the storage and to the resident tree of its document. A tree is installed
where none is resident. -/
inductive Effect where
  | nothing
  | minimize
  | install (owner : MinimizedSedimentree) (content : Content)
  | give (item : Item)
  | save (verified : VerifiedItem)
  | drop
  | deleteLooseCommits
  | deleteFragments
  | deleteSedimentreeId

variable [IterOrder (Digest LooseCommit)] [IterOrder (Digest Fragment)]

/-- What is stored for the document. -/
def MemoryStorage.content (storage : MemoryStorage) (id : SedimentreeId) : Content :=
  ⟨storage.loadLooseCommitMetas id, storage.loadFragmentMetas id⟩

theorem MemoryStorage.content_has {storage : MemoryStorage} {id : SedimentreeId} {item : Item} :
    (storage.content id).Has item ↔ storage.Has id item := by
  cases item with
  | commit payload => exact mem_metas
  | fragment payload => exact mem_metas

/-- A resident tree is found. -/
def Purpose.hit : Purpose → Effect × Task
  | getOrHydrate => (.minimize, .done)
  | batchSyncRequest _ => (.minimize, .done)
  | newness verified => (.nothing, .save verified)
  | add verified => (.give verified.item, .done)

/-- `get_or_insert_with`: a resident tree wins. -/
def Effect.getOrInsertWith (resident : Option MinimizedSedimentree) (owner : MinimizedSedimentree)
    (content : Content) : Effect :=
  match resident with
  | some _ => .nothing
  | none => .install owner content

/-- Both tables are loaded: the tree is installed, or a tree that is resident by now is adopted. -/
def Purpose.settle (depthMetric : DepthMetric) (resident : Option MinimizedSedimentree)
    (content : Content) : Purpose → Effect × Task
  | getOrHydrate =>
    if content.isEmpty then (.nothing, .containsSedimentreeId)
    else (.getOrInsertWith resident (.alreadyMinimal (content.tree.minimize depthMetric)) content,
      .done)
  | batchSyncRequest _ =>
    if content.dedupe.isEmpty then (.nothing, .done)
    else (.getOrInsertWith resident (.alreadyMinimal (content.dedupe.tree.minimize depthMetric))
      content.dedupe, .done)
  | newness verified =>
    if content.isEmpty then (.nothing, .save verified)
    else (.getOrInsertWith resident (.new content.tree) content, .save verified)
  | add verified =>
    match resident with
    | some _ => (.give verified.item, .done)
    | none =>
      let loaded := if content.isEmpty then ∅ else .new content.tree
      (.install (verified.item.addTo loaded) (content.give verified.item), .done)

/-- **The next step of a task.** -/
def Task.next (depthMetric : DepthMetric) (node : Node) (id : SedimentreeId) : Task → Effect × Task
  | headsOrHydrate =>
    match node.sedimentrees id with
    | some _ => (.minimize, .done)
    | none => (.nothing, .lookUp .getOrHydrate)
  | lookUp purpose =>
    match node.sedimentrees id with
    | some _ => purpose.hit
    | none => (.nothing, .load purpose)
  | load purpose =>
    if purpose.fragmentsFirst then
      (.nothing, .loadLooseCommits purpose (node.storage.loadFragmentMetas id))
    else (.nothing, .loadFragments purpose (node.storage.loadLooseCommitMetas id))
  | loadFragments purpose commits =>
    (.nothing, .loaded purpose ⟨commits, node.storage.loadFragmentMetas id⟩)
  | loadLooseCommits purpose fragments =>
    (.nothing, .loaded purpose ⟨node.storage.loadLooseCommitMetas id, fragments⟩)
  | loaded purpose content => purpose.settle depthMetric (node.sedimentrees id) content
  | containsSedimentreeId => (.nothing, if id ∈ node.storage.ids then .installEmpty else .done)
  | installEmpty =>
    (.getOrInsertWith (node.sedimentrees id) (.alreadyMinimal ∅) ⟨[], []⟩, .done)
  | save verified => (.save verified, .lookUp (.add verified))
  | removeSedimentree => (.drop, .deleteLooseCommits)
  | deleteLooseCommits => (.deleteLooseCommits, .deleteFragments)
  | deleteFragments => (.deleteFragments, .deleteSedimentreeId)
  | deleteSedimentreeId => (.deleteSedimentreeId, .done)
  | done => (.nothing, .done)

/-- **A node, with a record of what its resident trees were given**: what a tree was installed with and
what was added to it since. -/
structure Tracked where
  node : Node
  given : SedimentreeId → Content

namespace Tracked

def withStorage (tracked : Tracked) (storage : MemoryStorage) : Tracked :=
  { tracked with node := { tracked.node with storage := storage } }

/-- The tree becomes resident, and the record with it. -/
def install (tracked : Tracked) (id : SedimentreeId) (owner : MinimizedSedimentree)
    (content : Content) : Tracked :=
  ⟨tracked.node.install id owner, Function.update tracked.given id content⟩

def evict (tracked : Tracked) (id : SedimentreeId) : Tracked :=
  { tracked with node := tracked.node.evict id }

/-- **The effect of a step on its document.** -/
def apply (depthMetric : DepthMetric) (tracked : Tracked) (id : SedimentreeId) : Effect → Tracked
  | .nothing => tracked
  | .minimize =>
    match tracked.node.sedimentrees id with
    | some owner => tracked.install id (owner.ensureMinimized depthMetric) (tracked.given id)
    | none => tracked
  | .install owner content => tracked.install id owner content
  | .give item =>
    match tracked.node.sedimentrees id with
    | some owner => tracked.install id (item.addTo owner) ((tracked.given id).give item)
    | none => tracked
  | .save verified => tracked.withStorage (verified.save id tracked.node.storage)
  | .drop => tracked.evict id
  | .deleteLooseCommits => tracked.withStorage (tracked.node.storage.deleteLooseCommits id)
  | .deleteFragments => tracked.withStorage (tracked.node.storage.deleteFragments id)
  | .deleteSedimentreeId => tracked.withStorage (tracked.node.storage.deleteSedimentreeId id)

/-- One step of a task on its document. -/
def advance (depthMetric : DepthMetric) (tracked : Tracked) (task : SedimentreeId × Task) :
    Tracked × (SedimentreeId × Task) :=
  let step := task.2.next depthMetric tracked.node task.1
  (tracked.apply depthMetric task.1 step.1, (task.1, step.2))

end Tracked

/-- A turn of the node: an operation on a document starts, a task advances, or a tree is evicted. -/
abbrev NodeTurn := Turn (SedimentreeId × Operation) SedimentreeId

abbrev NodeCrew := Crew Tracked (SedimentreeId × Task)

/-- **One turn of the node.** -/
def NodeCrew.step (depthMetric : DepthMetric) (crew : NodeCrew) (turn : NodeTurn) : NodeCrew :=
  Crew.step (fun operation => (operation.1, operation.2.begin)) (Tracked.advance depthMetric)
    Tracked.evict crew turn

/-- The node is started on a storage: nothing is resident and no task is under way. -/
def NodeCrew.start (storage : MemoryStorage) : NodeCrew :=
  ⟨⟨⟨storage, fun _ => none⟩, fun _ => ⟨[], []⟩⟩, []⟩

def NodeCrew.run (depthMetric : DepthMetric) (crew : NodeCrew) (turns : List NodeTurn) : NodeCrew :=
  turns.foldl (NodeCrew.step depthMetric) crew

/-! ### What a step can do -/

/-- The item that a lookup inserts. -/
def Purpose.inserting : Purpose → Option Item
  | getOrHydrate => none
  | batchSyncRequest _ => none
  | newness verified => some verified.item
  | add verified => some verified.item

/-- The item of an insert that is under way. -/
def Task.inserting : Task → Option Item
  | lookUp purpose => purpose.inserting
  | load purpose => purpose.inserting
  | loadFragments purpose _ => purpose.inserting
  | loadLooseCommits purpose _ => purpose.inserting
  | loaded purpose _ => purpose.inserting
  | save verified => some verified.item
  | _ => none

def Task.isDone : Task → Bool
  | done => true
  | _ => false

/-- **The owner holds the tree of the content**, to be minimized or in minimal form. -/
def Content.Made (depthMetric : DepthMetric) (content : Content) (owner : MinimizedSedimentree) : Prop :=
  owner = .new content.tree ∨ owner = .alreadyMinimal (content.tree.minimizeInPlace depthMetric)

/-- The task is a removal under way. -/
def Task.removes : Task → Bool
  | removeSedimentree => true
  | deleteLooseCommits => true
  | deleteFragments => true
  | deleteSedimentreeId => true
  | _ => false

/-- The effect is a step of a removal. -/
def Effect.Removes : Effect → Prop
  | drop => True
  | deleteLooseCommits => True
  | deleteFragments => True
  | deleteSedimentreeId => True
  | _ => False

/-- **What a step can do**, from the resident tree, whether the task is a removal, the item of the
insert before the step, the effect, and the item of the insert after it. -/
inductive StepKind (depthMetric : DepthMetric) (resident : Option MinimizedSedimentree)
    (removing : Bool) (before : Option Item) (effect : Effect) (after : Option Item) : Prop
  | idles (isNothing : effect = .nothing) (same : after = before)
  | reads (owner : MinimizedSedimentree) (hit : resident = some owner) (isMinimize : effect = .minimize)
      (same : after = before)
  | installs (owner : MinimizedSedimentree) (content : Content) (miss : resident = none)
      (made : content.Made depthMetric owner) (isInstall : effect = .install owner content)
      (goesOn : ∀ item, before = some item → after = some item ∨ content.Has item)
      (was : ∀ item, after = some item → before = some item)
  | gives (owner : MinimizedSedimentree) (item : Item) (hit : resident = some owner)
      (isGive : effect = .give item) (was : before = some item) (ends : after = none)
  | saves (verified : VerifiedItem) (isSave : effect = .save verified)
      (was : before = some verified.item) (same : after = before)
  | removes (removal : effect.Removes) (same : after = before) (isRemoval : removing = true)

section Kinds

variable {depthMetric : DepthMetric} {resident : Option MinimizedSedimentree} {removing : Bool}

theorem StepKind.getOrInsertWith {content : Content} {owner : MinimizedSedimentree}
    (made : content.Made depthMetric owner) (item : Option Item) :
    StepKind depthMetric resident removing item (.getOrInsertWith resident owner content) item := by
  cases resident with
  | some found => exact .idles rfl rfl
  | none => exact .installs owner content rfl made rfl (fun _ was => Or.inl was) fun _ was => was

theorem Purpose.hit_kind {owner : MinimizedSedimentree} (hit : resident = some owner)
    (purpose : Purpose) :
    StepKind depthMetric resident removing purpose.inserting purpose.hit.1 purpose.hit.2.inserting := by
  cases purpose with
  | getOrHydrate => exact .reads owner hit rfl rfl
  | batchSyncRequest fragmentsFirst => exact .reads owner hit rfl rfl
  | newness verified => exact .idles rfl rfl
  | add verified => exact .gives owner verified.item hit rfl rfl rfl

theorem Purpose.settle_kind (content : Content) (purpose : Purpose) :
    StepKind depthMetric resident removing purpose.inserting (purpose.settle depthMetric resident content).1
      (purpose.settle depthMetric resident content).2.inserting := by
  have minimal : ∀ content : Content, content.Made depthMetric
      (.alreadyMinimal (content.tree.minimize depthMetric)) := by
    intro content
    rw [Sedimentree.minimize_eq_minimizeInPlace]
    exact Or.inr rfl
  cases purpose with
  | getOrHydrate =>
    unfold settle
    cases content.isEmpty with
    | true => exact .idles rfl rfl
    | false => exact .getOrInsertWith (minimal content) none
  | batchSyncRequest fragmentsFirst =>
    unfold settle
    cases content.dedupe.isEmpty with
    | true => exact .idles rfl rfl
    | false => exact .getOrInsertWith (minimal content.dedupe) none
  | newness verified =>
    unfold settle
    cases content.isEmpty with
    | true => exact .idles rfl rfl
    | false => exact .getOrInsertWith (Or.inl rfl) (some verified.item)
  | add verified =>
    cases resident with
    | some owner => exact .gives owner verified.item rfl rfl rfl rfl
    | none =>
      have made : (content.give verified.item).Made depthMetric
          (verified.item.addTo (if content.isEmpty then ∅ else .new content.tree)) := by
        cases empty : content.isEmpty with
        | false => exact Or.inl (content.tree_give verified.item true)
        | true =>
          have isNil : content = ⟨[], []⟩ := by
            simp only [Content.isEmpty, Bool.and_eq_true, List.isEmpty_iff] at empty
            rw [← empty.1, ← empty.2]
          rw [isNil]
          exact Or.inl (Content.tree_give ⟨[], []⟩ verified.item false)
      refine .installs _ _ rfl made rfl (fun item was => Or.inr ?_) fun item was => nomatch was
      rw [← Option.some.inj was]
      exact Content.has_give.mpr (Or.inr rfl)

theorem Task.next_kind (depthMetric : DepthMetric) (node : Node) (id : SedimentreeId) (task : Task) :
    StepKind depthMetric (node.sedimentrees id) task.removes task.inserting
      (task.next depthMetric node id).1 (task.next depthMetric node id).2.inserting := by
  cases task with
  | headsOrHydrate =>
    unfold next
    cases hit : node.sedimentrees id with
    | some owner => exact .reads owner rfl rfl rfl
    | none => exact .idles rfl rfl
  | lookUp purpose =>
    unfold next
    cases hit : node.sedimentrees id with
    | some owner => exact purpose.hit_kind rfl
    | none => exact .idles rfl rfl
  | load purpose =>
    unfold next
    dsimp only
    cases purpose.fragmentsFirst with
    | true => exact .idles rfl rfl
    | false => exact .idles rfl rfl
  | loadFragments purpose commits => exact .idles rfl rfl
  | loadLooseCommits purpose fragments => exact .idles rfl rfl
  | loaded purpose content => exact purpose.settle_kind content
  | containsSedimentreeId =>
    refine .idles rfl ?_
    show (if id ∈ node.storage.ids then Task.installEmpty else .done).inserting = none
    split
    · rfl
    · rfl
  | installEmpty =>
    refine .getOrInsertWith (Or.inr ?_) none
    exact congrArg MinimizedSedimentree.alreadyMinimal (Sedimentree.minimizeInPlace_empty _).symm
  | save verified => exact .saves verified rfl rfl rfl
  | removeSedimentree => exact .removes trivial rfl rfl
  | deleteLooseCommits => exact .removes trivial rfl rfl
  | deleteFragments => exact .removes trivial rfl rfl
  | deleteSedimentreeId => exact .removes trivial rfl rfl
  | done => exact .idles rfl rfl

theorem StepKind.was {before after : Option Item} {effect : Effect}
    (kind : StepKind depthMetric resident removing before effect after) {item : Item}
    (inserts : after = some item) : before = some item := by
  cases kind with
  | idles _ same => exact same ▸ inserts
  | reads _ _ _ same => exact same ▸ inserts
  | installs _ _ _ _ _ _ was => exact was item inserts
  | gives _ _ _ _ _ ends => exact nomatch ends.symm.trans inserts
  | saves _ _ _ same => exact same ▸ inserts
  | removes _ same => exact same ▸ inserts

end Kinds

/-! ### Other documents -/

/-- The document looks the same in both states. -/
structure Tracked.SameAt (first second : Tracked) (id : SedimentreeId) : Prop where
  resident : first.node.sedimentrees id = second.node.sedimentrees id
  given : first.given id = second.given id
  stored : ∀ item, first.node.storage.Has id item ↔ second.node.storage.Has id item
  registered : id ∈ first.node.storage.ids ↔ id ∈ second.node.storage.ids

section Others

variable {tracked : Tracked} {id other : SedimentreeId}

theorem Tracked.SameAt.refl (tracked : Tracked) (id : SedimentreeId) : tracked.SameAt tracked id :=
  ⟨rfl, rfl, fun _ => Iff.rfl, Iff.rfl⟩

theorem Tracked.install_other (different : other ≠ id) (owner : MinimizedSedimentree)
    (content : Content) : (tracked.install id owner content).SameAt tracked other :=
  ⟨update_of_ne different _ _, update_of_ne different _ _, fun _ => Iff.rfl, Iff.rfl⟩

theorem Tracked.evict_other (different : other ≠ id) : (tracked.evict id).SameAt tracked other :=
  ⟨update_of_ne different _ _, rfl, fun _ => Iff.rfl, Iff.rfl⟩

@[simp] theorem Tracked.install_resident (owner : MinimizedSedimentree) (content : Content) :
    (tracked.install id owner content).node.sedimentrees id = some owner := update_self ..

@[simp] theorem Tracked.install_given (owner : MinimizedSedimentree) (content : Content) :
    (tracked.install id owner content).given id = content := update_self ..

@[simp] theorem Tracked.evict_resident : (tracked.evict id).node.sedimentrees id = none :=
  update_self ..

theorem Tracked.apply_other (different : other ≠ id) (depthMetric : DepthMetric) (effect : Effect) :
    (tracked.apply depthMetric id effect).SameAt tracked other := by
  cases effect with
  | nothing => exact .refl tracked other
  | minimize =>
    unfold apply
    cases tracked.node.sedimentrees id with
    | some owner => exact install_other different _ _
    | none => exact .refl tracked other
  | install owner content => exact install_other different owner content
  | give item =>
    unfold apply
    cases tracked.node.sedimentrees id with
    | some owner => exact install_other different _ _
    | none => exact .refl tracked other
  | save verified =>
    refine ⟨rfl, rfl, fun item => ⟨fun has => ?_, fun has => has.save verified⟩, ?_⟩
    · exact (VerifiedItem.has_save has).resolve_right fun same => different same.1
    · cases verified with
      | commit verified | fragment verified => exact Finset.mem_insert.trans (or_iff_right different)
  | drop => exact evict_other different
  | deleteLooseCommits =>
    refine ⟨rfl, rfl, fun item => ?_, Iff.rfl⟩
    cases item with
    | commit payload => exact has_delete.trans (and_iff_right different)
    | fragment payload => exact Iff.rfl
  | deleteFragments =>
    refine ⟨rfl, rfl, fun item => ?_, Iff.rfl⟩
    cases item with
    | commit payload => exact Iff.rfl
    | fragment payload => exact has_delete.trans (and_iff_right different)
  | deleteSedimentreeId =>
    refine ⟨rfl, rfl, fun _ => Iff.rfl, ?_⟩
    exact Finset.mem_erase.trans (and_iff_right different)

end Others

/-! ### One turn -/

namespace NodeCrew

/-- **The effect that a turn is about to have**, with its document. -/
def effect? (depthMetric : DepthMetric) (crew : NodeCrew) : NodeTurn → Option (SedimentreeId × Effect)
  | .advance index => crew.tasks[index]?.map fun task =>
    (task.1, (task.2.next depthMetric crew.shared.node task.1).1)
  | _ => none

theorem effect?_advance {depthMetric : DepthMetric} {crew : NodeCrew}
    {before after : List (SedimentreeId × Task)} {id : SedimentreeId} {task : Task}
    (split : crew.tasks = before ++ (id, task) :: after) :
    crew.effect? depthMetric (.advance before.length) =
      some (id, (task.next depthMetric crew.shared.node id).1) := by
  rw [effect?, split, List.getElem?_append_right le_rfl, Nat.sub_self]
  rfl

/-- The item belongs to an insert that is under way. -/
def InFlight (crew : NodeCrew) (id : SedimentreeId) (item : Item) : Prop :=
  ∃ task ∈ crew.tasks, task.1 = id ∧ task.2.inserting = some item

def Quiet (crew : NodeCrew) : Prop := ∀ task ∈ crew.tasks, task.2.isDone = true

instance (crew : NodeCrew) : Decidable crew.Quiet :=
  inferInstanceAs (Decidable (∀ task ∈ crew.tasks, _))

instance (crew : NodeCrew) (id : SedimentreeId) (item : Item) : Decidable (crew.InFlight id item) :=
  inferInstanceAs (Decidable (∃ task ∈ crew.tasks, _ ∧ _))

/-- A turn that advances a task: its document, its effect, and how the task goes on. -/
structure Advanced (depthMetric : DepthMetric) (crew : NodeCrew) (turn : NodeTurn)
    (before after : List (SedimentreeId × Task)) (id : SedimentreeId) (task later : Task)
    (effect : Effect) : Prop where
  split : crew.tasks = before ++ (id, task) :: after
  next : task.next depthMetric crew.shared.node id = (effect, later)
  about : crew.effect? depthMetric turn = some (id, effect)
  kind : StepKind depthMetric (crew.shared.node.sedimentrees id) task.removes task.inserting effect
    later.inserting
  result : crew.step depthMetric turn =
    ⟨crew.shared.apply depthMetric id effect, before ++ (id, later) :: after⟩

theorem step_cases (depthMetric : DepthMetric) (crew : NodeCrew) (turn : NodeTurn) :
    (∃ id operation, turn = .start (id, operation) ∧
      crew.step depthMetric turn = ⟨crew.shared, crew.tasks ++ [(id, operation.begin)]⟩) ∨
    (∃ before after id task later effect,
      crew.Advanced depthMetric turn before after id task later effect) ∨
    crew.step depthMetric turn = crew ∨
    ∃ id, turn = .outside id ∧ crew.step depthMetric turn = ⟨crew.shared.evict id, crew.tasks⟩ := by
  rcases Crew.step_cases (fun operation : SedimentreeId × Operation => (operation.1, operation.2.begin))
    (Tracked.advance depthMetric) Tracked.evict crew turn with ⟨⟨id, operation⟩, isStart, result⟩ |
    ⟨before, ⟨id, task⟩, after, isAdvance, split, result⟩ | result | ⟨id, isOutside, result⟩
  · exact Or.inl ⟨id, operation, isStart, result⟩
  · rw [isAdvance] at result ⊢
    exact Or.inr (Or.inl ⟨before, after, id, task, _, _, split, rfl, effect?_advance split,
      task.next_kind depthMetric crew.shared.node id, result⟩)
  · exact Or.inr (Or.inr (Or.inl result))
  · exact Or.inr (Or.inr (Or.inr ⟨id, isOutside, result⟩))

section Advanced

variable {depthMetric : DepthMetric} {crew : NodeCrew} {turn : NodeTurn} {id other : SedimentreeId}
  {before after : List (SedimentreeId × Task)} {task later : Task} {effect : Effect}

section

variable (advanced : crew.Advanced depthMetric turn before after id task later effect)

include advanced

theorem Advanced.mem : (id, task) ∈ crew.tasks := by
  rw [advanced.split]
  exact mem_append_right _ mem_cons_self

theorem Advanced.of_mem_step {found : SedimentreeId × Task} (member : found ∈ (crew.step depthMetric turn).tasks) :
    found ∈ crew.tasks ∨ found = (id, later) := by
  rw [advanced.result] at member
  rw [advanced.split]
  simp only [mem_append, mem_cons] at member ⊢
  tauto

theorem Advanced.mem_step {found : SedimentreeId × Task} (member : found ∈ crew.tasks) :
    found ∈ (crew.step depthMetric turn).tasks ∨ found = (id, task) := by
  rw [advanced.split] at member
  rw [advanced.result]
  simp only [mem_append, mem_cons] at member ⊢
  tauto

theorem Advanced.mem_later : (id, later) ∈ (crew.step depthMetric turn).tasks := by
  rw [advanced.result]
  exact mem_append_right _ mem_cons_self

end

theorem Advanced.inFlight (advanced : crew.Advanced depthMetric turn before after other task later effect)
    {item : Item} (inFlight : (crew.step depthMetric turn).InFlight id item) : crew.InFlight id item := by
  obtain ⟨found, member, isId, inserts⟩ := inFlight
  rcases advanced.of_mem_step member with old | rfl
  · exact ⟨found, old, isId, inserts⟩
  · exact ⟨(other, task), advanced.mem, isId, advanced.kind.was inserts⟩

end Advanced

/-- **What holds of every document is kept by a turn**, when it does not depend on other documents and
an eviction and every step on the document keep it. -/
theorem forall_documents_step {depthMetric : DepthMetric} {crew : NodeCrew} {turn : NodeTurn}
    {holds : Tracked → SedimentreeId → Prop}
    (congr : ∀ first second id, first.SameAt second id → holds second id → holds first id)
    (evicts : ∀ id, holds (crew.shared.evict id) id)
    (advances : ∀ before after id task later effect,
      crew.Advanced depthMetric turn before after id task later effect → holds crew.shared id →
        holds (crew.shared.apply depthMetric id effect) id)
    (each : ∀ id, holds crew.shared id) (id : SedimentreeId) :
    holds (crew.step depthMetric turn).shared id := by
  rcases crew.step_cases depthMetric turn with ⟨other, operation, -, result⟩ |
    ⟨before, after, other, task, later, effect, advanced⟩ | result | ⟨other, -, result⟩
  · rw [result]
    exact each id
  · rw [advanced.result]
    by_cases same : id = other
    · rw [same]
      exact advances before after other task later effect advanced (each other)
    · exact congr _ _ id (Tracked.apply_other same depthMetric effect) (each id)
  · rw [result]
    exact each id
  · rw [result]
    by_cases same : id = other
    · rw [same]
      exact evicts other
    · exact congr _ _ id (Tracked.evict_other same) (each id)

end NodeCrew

/-! ### A task that nothing interrupts -/

section Alone

variable {depthMetric : DepthMetric} {tracked : Tracked} {id : SedimentreeId}

/-- Some steps of a task, without a turn of anything else. -/
def Advances (depthMetric : DepthMetric) (first last : Tracked × (SedimentreeId × Task)) : Prop :=
  Relation.ReflTransGen (fun before after => Tracked.advance depthMetric before.1 before.2 = after)
    first last

theorem Advances.lookUp_hit {owner : MinimizedSedimentree}
    (hit : tracked.node.sedimentrees id = some owner) (purpose : Purpose) :
    Advances depthMetric (tracked, (id, .lookUp purpose))
      (tracked.apply depthMetric id purpose.hit.1, (id, purpose.hit.2)) := by
  refine .single ?_
  simp only [Tracked.advance, Task.next, hit]

theorem Advances.lookUp_miss (miss : tracked.node.sedimentrees id = none) (purpose : Purpose) :
    Advances depthMetric (tracked, (id, .lookUp purpose)) (tracked.apply depthMetric id
        (purpose.settle depthMetric none (tracked.node.storage.content id)).1,
        (id, (purpose.settle depthMetric none (tracked.node.storage.content id)).2)) := by
  have looked : Advances depthMetric (tracked, (id, .lookUp purpose)) (tracked, (id, .load purpose)) := by
    refine .single ?_
    simp only [Tracked.advance, Task.next, miss, Tracked.apply]
  have loaded : Advances depthMetric (tracked, (id, .load purpose))
      (tracked, (id, .loaded purpose (tracked.node.storage.content id))) := by
    cases first : purpose.fragmentsFirst with
    | true =>
      refine .tail (.single (b := (tracked, (id, .loadLooseCommits purpose
        (tracked.node.storage.loadFragmentMetas id)))) ?_) rfl
      simp only [Tracked.advance, Task.next, first, if_true, Tracked.apply]
    | false =>
      refine .tail (.single (b := (tracked, (id, .loadFragments purpose
        (tracked.node.storage.loadLooseCommitMetas id)))) ?_) rfl
      simp only [Tracked.advance, Task.next, first, Tracked.apply]
      rfl
  refine (looked.trans loaded).tail ?_
  simp only [Tracked.advance, Task.next, miss]

theorem MemoryStorage.loadTree_eq (storage : MemoryStorage) (id : SedimentreeId) :
    storage.loadTree id = if (storage.content id).isEmpty then none
      else some (.new (storage.content id).tree) := rfl

/-- **A lookup that runs alone** is the sequential one. -/
theorem advance_getOrHydrate (depthMetric : DepthMetric) (tracked : Tracked) (id : SedimentreeId) :
    ∃ given, Advances depthMetric (tracked, (id, Operation.getOrHydrate.begin))
      (⟨(tracked.node.getOrHydrate depthMetric id).1, given⟩, (id, .done)) := by
  unfold Node.getOrHydrate
  cases resident : tracked.node.sedimentrees id with
  | some owner =>
    have read : Advances depthMetric _ _ := .lookUp_hit resident .getOrHydrate
    simp only [Purpose.hit, Tracked.apply, resident] at read
    exact ⟨_, read⟩
  | none =>
    have read : Advances depthMetric _ _ := .lookUp_miss resident .getOrHydrate
    cases empty : (tracked.node.storage.content id).isEmpty with
    | false =>
      have stored : ((tracked.node.storage.loadLooseCommitMetas id).isEmpty &&
        (tracked.node.storage.loadFragmentMetas id).isEmpty) = false := empty
      simp only [Purpose.settle, empty, Effect.getOrInsertWith, Tracked.apply] at read
      simp only [stored]
      exact ⟨_, read⟩
    | true =>
      have stored : ((tracked.node.storage.loadLooseCommitMetas id).isEmpty &&
        (tracked.node.storage.loadFragmentMetas id).isEmpty) = true := empty
      simp only [Purpose.settle, empty, if_true, Tracked.apply] at read
      simp only [stored, if_true]
      by_cases registered : id ∈ tracked.node.storage.ids
      · rw [if_pos registered]
        have confirmed : Advances depthMetric (tracked, (id, .lookUp .getOrHydrate))
            (tracked, (id, .installEmpty)) := by
          refine read.tail ?_
          simp only [Tracked.advance, Task.next, if_pos registered, Tracked.apply]
        refine ⟨Function.update tracked.given id ⟨[], []⟩, confirmed.tail ?_⟩
        simp only [Tracked.advance, Task.next, resident, Effect.getOrInsertWith, Tracked.apply]
        rfl
      · rw [if_neg registered]
        refine ⟨tracked.given, read.tail ?_⟩
        simp only [Tracked.advance, Task.next, if_neg registered, Tracked.apply]

theorem Advances.newness {R : Type} (inspect : MinimizedSedimentree → R) (tracked : Tracked)
    (id : SedimentreeId) (verified : VerifiedItem) :
    ∃ given, Advances depthMetric (tracked, (id, .lookUp (.newness verified)))
      (⟨(tracked.node.withHydratedRef id inspect).1, given⟩, (id, .save verified)) := by
  unfold Node.withHydratedRef
  cases resident : tracked.node.sedimentrees id with
  | some owner => exact ⟨_, .lookUp_hit resident (.newness verified)⟩
  | none =>
    have read : Advances depthMetric _ _ := .lookUp_miss resident (.newness verified)
    rw [MemoryStorage.loadTree_eq]
    cases empty : (tracked.node.storage.content id).isEmpty with
    | true =>
      simp only [Purpose.settle, empty] at read
      exact ⟨_, read⟩
    | false =>
      simp only [Purpose.settle, empty, Effect.getOrInsertWith] at read
      exact ⟨_, read⟩

theorem Advances.add (tracked : Tracked) (id : SedimentreeId) (verified : VerifiedItem) :
    ∃ given, Advances depthMetric (tracked, (id, .lookUp (.add verified)))
      (⟨tracked.node.withEntryHydrated id verified.item.addTo, given⟩, (id, .done)) := by
  unfold Node.withEntryHydrated
  cases resident : tracked.node.sedimentrees id with
  | some owner =>
    have added : Advances depthMetric _ _ := .lookUp_hit resident (.add verified)
    simp only [Purpose.hit, Tracked.apply, resident] at added
    exact ⟨_, added⟩
  | none =>
    have added : Advances depthMetric _ _ := .lookUp_miss resident (.add verified)
    rw [MemoryStorage.loadTree_eq]
    cases empty : (tracked.node.storage.content id).isEmpty with
    | true | false =>
      simp only [Purpose.settle, empty] at added
      exact ⟨_, added⟩

/-- `insert_commit_locally` or `insert_fragment_locally` of the sequential model. -/
def VerifiedItem.insertLocally (item : VerifiedItem) (node : Node) (id : SedimentreeId) : Node × Bool :=
  match item with
  | .commit verified => node.insertCommitLocally id verified
  | .fragment verified => node.insertFragmentLocally id verified

/-- **So is an insert.** -/
theorem advance_insertLocally (depthMetric : DepthMetric) (tracked : Tracked) (id : SedimentreeId)
    (verified : VerifiedItem) :
    ∃ given, Advances depthMetric (tracked, (id, (Operation.insertLocally verified).begin))
      (⟨(verified.insertLocally tracked.node id).1, given⟩, (id, .done)) := by
  obtain ⟨known, isInsert⟩ : ∃ known, (verified.insertLocally tracked.node id).1 =
      (tracked.node.insertLocally id known (verified.save id) verified.item.addTo).1 := by
    cases verified with
    | commit verified => exact ⟨_, rfl⟩
    | fragment verified => exact ⟨_, rfl⟩
  obtain ⟨given, judged⟩ := Advances.newness (fun owner => !known owner.tree) tracked id verified
  obtain ⟨after, added⟩ := Advances.add
    (Tracked.mk { (tracked.node.withHydratedRef id fun owner => !known owner.tree).1 with
      storage := verified.save id _ } given) id verified
  rw [isInsert]
  exact ⟨after, (judged.tail rfl).trans added⟩

end Alone

end Subduction
