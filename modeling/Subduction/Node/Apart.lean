/-
**Removals that overlap nothing on their document.**

What a lookup loads is still stored when it installs it, and the item of an insert is still stored when
it is added, as long as no removal of the document is under way next to another task on it. So every
step of such a run is backed, unless a save meets another payload with the same digest.

* **`backed_of_apart`** — in every such run all steps are backed.
-/

import Subduction.Node.Removal

set_option linter.unusedSectionVars false

namespace Subduction

open Content Tracked List

variable [Blake3] [Bijou64Codec] [IterOrder CommitId] [IterOrder (Digest LooseCommit)]
  [IterOrder (Digest Fragment)]

/-! ### The conditions -/

/-- A removal is under way next to another task on its document. -/
def Clash (removal other : SedimentreeId × Task) : Prop :=
  removal.1 = other.1 ∧ removal.2.removes = true ∧ other.2.isDone = false

instance (removal other : SedimentreeId × Task) : Decidable (Clash removal other) :=
  inferInstanceAs (Decidable (_ ∧ _))

/-- **A removal is the only task under way on its document.** -/
def NodeCrew.Apart (crew : NodeCrew) : Prop :=
  crew.tasks.Pairwise fun first second => ¬ Clash first second ∧ ¬ Clash second first

/-- A save does not meet another payload with the digest of its item. -/
def Effect.Distinct (storage : MemoryStorage) (id : SedimentreeId) : Effect → Prop
  | save verified => ∀ item, (storage.content id).Has item → item.SameDigest verified.item →
      item = verified.item
  | _ => True

/-- **No removal overlaps another task on its document, and no digest collides.** -/
structure NodeCrew.Tidy (depthMetric : DepthMetric) (crew : NodeCrew) (turn : NodeTurn) : Prop where
  apart : crew.Apart
  distinct : ∀ about ∈ crew.effect? depthMetric turn, about.2.Distinct crew.shared.node.storage about.1

instance : ∀ first second : Item, Decidable (first.SameDigest second)
  | .commit _, .commit _ => inferInstanceAs (Decidable (_ = _))
  | .fragment _, .fragment _ => inferInstanceAs (Decidable (_ = _))
  | .commit _, .fragment _ => isFalse id
  | .fragment _, .commit _ => isFalse id

instance (storage : MemoryStorage) (id : SedimentreeId) :
    ∀ effect : Effect, Decidable (effect.Distinct storage id)
  | .save verified => inferInstanceAs (Decidable (∀ item, (storage.content id).Has item →
      item.SameDigest verified.item → item = verified.item))
  | .nothing => isTrue trivial
  | .minimize => isTrue trivial
  | .install _ _ => isTrue trivial
  | .give _ => isTrue trivial
  | .drop => isTrue trivial
  | .deleteLooseCommits => isTrue trivial
  | .deleteFragments => isTrue trivial
  | .deleteSedimentreeId => isTrue trivial

instance (depthMetric : DepthMetric) (crew : NodeCrew) (turn : NodeTurn) :
    Decidable (crew.Tidy depthMetric turn) :=
  decidable_of_iff ((crew.tasks.Pairwise fun first second => ¬ Clash first second ∧ ¬ Clash second first) ∧
      ∀ about ∈ crew.effect? depthMetric turn, about.2.Distinct crew.shared.node.storage about.1)
    ⟨fun both => ⟨both.1, both.2⟩, fun tidy => ⟨tidy.apart, tidy.distinct⟩⟩

/-! ### What a task relies on -/

/-- The item of an addition is stored. -/
def Purpose.Relies (storage : MemoryStorage) (id : SedimentreeId) : Purpose → Prop
  | add verified => storage.Has id verified.item
  | _ => True

/-- **What a task carries is stored**, and a document that it deletes is not resident. -/
def Task.Relies (node : Node) (id : SedimentreeId) : Task → Prop
  | lookUp purpose => purpose.Relies node.storage id
  | load purpose => purpose.Relies node.storage id
  | loadFragments purpose commits => purpose.Relies node.storage id ∧
      ∀ commit ∈ commits, node.storage.Has id (.commit commit)
  | loadLooseCommits purpose fragments => purpose.Relies node.storage id ∧
      ∀ fragment ∈ fragments, node.storage.Has id (.fragment fragment)
  | loaded purpose content => purpose.Relies node.storage id ∧
      ∀ item, content.Has item → node.storage.Has id item
  | installEmpty => id ∈ node.storage.ids
  | deleteLooseCommits => node.sedimentrees id = none
  | deleteFragments => node.sedimentrees id = none
  | deleteSedimentreeId => node.sedimentrees id = none
  | _ => True

section Relies

variable {first second : Node} {id : SedimentreeId} {task : Task}

theorem Task.Relies.mono (relies : task.Relies first id)
    (stored : ∀ item, first.storage.Has id item → second.storage.Has id item)
    (registered : id ∈ first.storage.ids → id ∈ second.storage.ids)
    (resident : task.removes = true → first.sedimentrees id = none → second.sedimentrees id = none) :
    task.Relies second id := by
  have purposes : ∀ purpose : Purpose, purpose.Relies first.storage id →
      purpose.Relies second.storage id := by
    intro purpose relies
    cases purpose with
    | add verified => exact stored _ relies
    | _ => exact relies
  cases task with
  | lookUp purpose => exact purposes purpose relies
  | load purpose => exact purposes purpose relies
  | loadFragments purpose commits =>
    exact ⟨purposes purpose relies.1, fun commit member => stored _ (relies.2 commit member)⟩
  | loadLooseCommits purpose fragments =>
    exact ⟨purposes purpose relies.1, fun fragment member => stored _ (relies.2 fragment member)⟩
  | loaded purpose content =>
    exact ⟨purposes purpose relies.1, fun item has => stored _ (relies.2 item has)⟩
  | installEmpty => exact registered relies
  | deleteLooseCommits => exact resident rfl relies
  | deleteFragments => exact resident rfl relies
  | deleteSedimentreeId => exact resident rfl relies
  | _ => exact trivial

end Relies

theorem VerifiedItem.has_save_self {verified : VerifiedItem} {storage : MemoryStorage}
    {id : SedimentreeId} (distinct : (Effect.save verified).Distinct storage id) :
    (verified.save id storage).Has id verified.item := by
  obtain ⟨found, has, sameDigest⟩ : ∃ found, (verified.save id storage).Has id found ∧
      found.SameDigest verified.item := by
    cases verified with
    | commit verified =>
      obtain ⟨payload, has, same⟩ := storage.commits.exists_digest_save id verified
      exact ⟨.commit payload, has, same⟩
    | fragment verified =>
      obtain ⟨payload, has, same⟩ := storage.fragments.exists_digest_save id verified
      exact ⟨.fragment payload, has, same⟩
  rcases VerifiedItem.has_save has with old | ⟨-, rfl⟩
  · rw [← distinct found (MemoryStorage.content_has.mpr old) sameDigest]
    exact has
  · exact has

/-! ### The own step of a task -/

section Own

variable {tracked : Tracked} {id : SedimentreeId} {depthMetric : DepthMetric}

theorem Effect.backed_getOrInsertWith {node : Node} {content : Content}
    (stored : ∀ item, content.Has item → node.storage.Has id item) (nonempty : content.isEmpty = false)
    (resident : Option MinimizedSedimentree) (owner : MinimizedSedimentree) :
    (Effect.getOrInsertWith resident owner content).Backed node id := by
  cases resident with
  | some found => exact trivial
  | none => exact ⟨stored, fun empty => absurd (nonempty.symm.trans empty) (by simp)⟩

theorem Content.isEmpty_give (content : Content) (item : Item) : (content.give item).isEmpty = false := by
  cases empty : (content.give item).isEmpty with
  | false => rfl
  | true => exact absurd (has_give.mpr (Or.inr rfl)) (not_has_of_isEmpty empty item)

theorem Purpose.Relies.settle {node : Node} {purpose : Purpose} {content : Content}
    (relies : purpose.Relies node.storage id)
    (stored : ∀ item, content.Has item → node.storage.Has id item)
    (resident : Option MinimizedSedimentree) :
    (purpose.settle depthMetric resident content).1.Backed node id ∧
      ∀ after : Node, (purpose.settle depthMetric resident content).2.Relies after id := by
  unfold Purpose.settle
  cases purpose with
  | getOrHydrate =>
    dsimp only
    cases empty : content.isEmpty with
    | true => exact ⟨trivial, fun _ => trivial⟩
    | false => exact ⟨Effect.backed_getOrInsertWith stored empty resident _, fun _ => trivial⟩
  | batchSyncRequest fragmentsFirst =>
    dsimp only
    cases empty : content.dedupe.isEmpty with
    | true => exact ⟨trivial, fun _ => trivial⟩
    | false =>
      refine ⟨Effect.backed_getOrInsertWith (fun item first => ?_) empty resident _, fun _ => trivial⟩
      exact stored item (has_of_has_dedupe first)
  | newness verified =>
    dsimp only
    cases empty : content.isEmpty with
    | true => exact ⟨trivial, fun _ => trivial⟩
    | false => exact ⟨Effect.backed_getOrInsertWith stored empty resident _, fun _ => trivial⟩
  | add verified =>
    cases resident with
    | some owner => exact ⟨relies, fun _ => trivial⟩
    | none =>
      refine ⟨⟨fun item has => ?_, fun empty => ?_⟩, fun _ => trivial⟩
      · rcases has_give.mp has with loaded | rfl
        · exact stored item loaded
        · exact relies
      · exact absurd ((isEmpty_give content verified.item).symm.trans empty) (by simp)

/-- **The own step of a task** is backed, and it carries what is stored. -/
theorem Task.Relies.next {task later : Task} {effect : Effect} (relies : task.Relies tracked.node id)
    (step : task.next depthMetric tracked.node id = (effect, later))
    (distinct : effect.Distinct tracked.node.storage id) :
    effect.Backed tracked.node id ∧ later.Relies (tracked.apply depthMetric id effect).node id := by
  have commits : ∀ commit ∈ tracked.node.storage.loadLooseCommitMetas id,
      tracked.node.storage.Has id (.commit commit) := fun commit => ItemStore.mem_metas.mp
  have fragments : ∀ fragment ∈ tracked.node.storage.loadFragmentMetas id,
      tracked.node.storage.Has id (.fragment fragment) := fun fragment => ItemStore.mem_metas.mp
  unfold Task.next at step
  cases task with
  | headsOrHydrate =>
    dsimp only at step
    cases hit : tracked.node.sedimentrees id with
    | some owner =>
      rw [hit] at step
      obtain ⟨rfl, rfl⟩ := Prod.mk.inj step
      exact ⟨trivial, trivial⟩
    | none =>
      rw [hit] at step
      obtain ⟨rfl, rfl⟩ := Prod.mk.inj step
      exact ⟨trivial, trivial⟩
  | lookUp purpose =>
    dsimp only at step
    cases hit : tracked.node.sedimentrees id with
    | some owner =>
      rw [hit] at step
      cases purpose with
      | add verified =>
        obtain ⟨rfl, rfl⟩ := Prod.mk.inj step
        exact ⟨relies, trivial⟩
      | _ =>
        obtain ⟨rfl, rfl⟩ := Prod.mk.inj step
        exact ⟨trivial, trivial⟩
    | none =>
      rw [hit] at step
      obtain ⟨rfl, rfl⟩ := Prod.mk.inj step
      exact ⟨trivial, relies⟩
  | load purpose =>
    dsimp only at step
    cases first : purpose.fragmentsFirst with
    | true =>
      rw [first, if_pos rfl] at step
      obtain ⟨rfl, rfl⟩ := Prod.mk.inj step
      exact ⟨trivial, relies, fragments⟩
    | false =>
      rw [first, if_neg (by simp)] at step
      obtain ⟨rfl, rfl⟩ := Prod.mk.inj step
      exact ⟨trivial, relies, commits⟩
  | loadFragments purpose loaded =>
    obtain ⟨rfl, rfl⟩ := Prod.mk.inj step
    refine ⟨trivial, relies.1, fun item has => ?_⟩
    cases item with
    | commit payload => exact relies.2 payload has
    | fragment payload => exact fragments payload has
  | loadLooseCommits purpose loaded =>
    obtain ⟨rfl, rfl⟩ := Prod.mk.inj step
    refine ⟨trivial, relies.1, fun item has => ?_⟩
    cases item with
    | commit payload => exact commits payload has
    | fragment payload => exact relies.2 payload has
  | loaded purpose content =>
    obtain ⟨backed, carries⟩ := @Purpose.Relies.settle _ _ _ _ _ id depthMetric _ _ _ relies.1
      relies.2 (tracked.node.sedimentrees id)
    rw [show purpose.settle depthMetric (tracked.node.sedimentrees id) content = (effect, later) from
      step] at backed carries
    exact ⟨backed, carries _⟩
  | containsSedimentreeId =>
    obtain ⟨rfl, rfl⟩ := Prod.mk.inj step
    refine ⟨trivial, ?_⟩
    by_cases registered : id ∈ tracked.node.storage.ids
    · rw [if_pos registered]
      exact registered
    · rw [if_neg registered]
      exact trivial
  | installEmpty =>
    obtain ⟨rfl, rfl⟩ := Prod.mk.inj step
    refine ⟨?_, trivial⟩
    cases tracked.node.sedimentrees id with
    | some owner => exact trivial
    | none => exact ⟨fun item has => absurd has (not_has_of_isEmpty rfl item), fun _ => relies⟩
  | save verified =>
    obtain ⟨rfl, rfl⟩ := Prod.mk.inj step
    exact ⟨trivial, VerifiedItem.has_save_self distinct⟩
  | removeSedimentree =>
    obtain ⟨rfl, rfl⟩ := Prod.mk.inj step
    exact ⟨trivial, evict_resident⟩
  | deleteLooseCommits | deleteFragments =>
    obtain ⟨rfl, rfl⟩ := Prod.mk.inj step
    exact ⟨relies, relies⟩
  | deleteSedimentreeId =>
    obtain ⟨rfl, rfl⟩ := Prod.mk.inj step
    exact ⟨relies, trivial⟩
  | done =>
    obtain ⟨rfl, rfl⟩ := Prod.mk.inj step
    exact ⟨trivial, trivial⟩

end Own

/-! ### The steps of other tasks -/

theorem StepKind.removes_of {depthMetric : DepthMetric} {resident : Option MinimizedSedimentree}
    {effect : Effect} {removing : Bool} {before after : Option Item}
    (kind : StepKind depthMetric resident removing before effect after) (removal : effect.Removes) :
    removing = true := by
  cases kind with
  | idles isNothing => exact (isNothing ▸ removal : Effect.nothing.Removes).elim
  | reads _ _ isMinimize => exact (isMinimize ▸ removal : Effect.minimize.Removes).elim
  | installs _ _ _ _ isInstall => exact (isInstall ▸ removal : (Effect.install _ _).Removes).elim
  | gives _ _ _ isGive => exact (isGive ▸ removal : (Effect.give _).Removes).elim
  | saves _ isSave => exact (isSave ▸ removal : (Effect.save _).Removes).elim
  | removes _ _ isRemoval => exact isRemoval

section Others

variable {tracked : Tracked} {id : SedimentreeId} {depthMetric : DepthMetric}

theorem Tracked.apply_grows {effect : Effect} (keeps : ¬ effect.Removes) :
    (∀ item, tracked.node.storage.Has id item →
      (tracked.apply depthMetric id effect).node.storage.Has id item) ∧
    (id ∈ tracked.node.storage.ids → id ∈ (tracked.apply depthMetric id effect).node.storage.ids) := by
  cases effect with
  | nothing => exact ⟨fun _ has => has, fun member => member⟩
  | install owner content => exact ⟨fun _ has => has, fun member => member⟩
  | minimize =>
    unfold Tracked.apply
    dsimp only
    cases tracked.node.sedimentrees id <;> exact ⟨fun _ has => has, fun member => member⟩
  | give item =>
    unfold Tracked.apply
    dsimp only
    cases tracked.node.sedimentrees id <;> exact ⟨fun _ has => has, fun member => member⟩
  | save verified =>
    refine ⟨fun item has => has.save verified, fun member => ?_⟩
    cases verified with
    | commit verified => exact Finset.mem_insert_of_mem member
    | fragment verified => exact Finset.mem_insert_of_mem member
  | _ => exact absurd trivial keeps

end Others

namespace NodeCrew

variable {depthMetric : DepthMetric} {crew : NodeCrew} {turn : NodeTurn}

/-- What every task under way carries is stored. -/
def Relies (crew : NodeCrew) : Prop := ∀ task ∈ crew.tasks, task.2.Relies crew.shared.node task.1

theorem Apart.of_split (apart : crew.Apart) {before after : List (SedimentreeId × Task)}
    {task other : SedimentreeId × Task} (split : crew.tasks = before ++ task :: after)
    (member : other ∈ before ++ after) : ¬ Clash task other ∧ ¬ Clash other task := by
  unfold Apart at apart
  rw [split, pairwise_append, pairwise_cons] at apart
  rcases mem_append.mp member with front | back
  · exact (apart.2.2 other front task mem_cons_self).symm
  · exact apart.2.1.1 other back

theorem Relies.others (relies : crew.Relies) (apart : crew.Apart)
    {before after : List (SedimentreeId × Task)} {id : SedimentreeId} {task : Task}
    (split : crew.tasks = before ++ (id, task) :: after) {other : SedimentreeId × Task}
    (member : other ∈ before ++ after) :
    other.2.Relies (crew.shared.apply depthMetric id (task.next depthMetric crew.shared.node id).1).node
      other.1 := by
  have here : other.2.Relies crew.shared.node other.1 := by
    refine relies other ?_
    rw [split]
    exact (mem_append.mp member).elim (mem_append_left _) fun back =>
      mem_append_right _ (mem_cons_of_mem _ back)
  obtain ⟨spares, spared⟩ := apart.of_split split member
  obtain ⟨document, other⟩ := other
  by_cases same : document = id
  · subst same
    by_cases removal : (task.next depthMetric crew.shared.node document).1.Removes
    · -- the other task is over
      have isDone : other.isDone = true := by
        by_contra busy
        exact spares ⟨rfl, (task.next_kind depthMetric crew.shared.node document).removes_of removal,
          Bool.eq_false_iff.mpr busy⟩
      cases other with
      | done => exact trivial
      | _ => exact nomatch isDone
    · cases deletes : other.removes with
      | true =>
        -- the task is over, and its step does nothing
        have isDone : task.isDone = true := by
          by_contra busy
          exact spared ⟨rfl, deletes, Bool.eq_false_iff.mpr busy⟩
        cases task with
        | done => exact here
        | _ => exact nomatch isDone
      | false =>
        obtain ⟨stored, registered⟩ := apply_grows removal
        exact here.mono stored registered fun impossible => nomatch deletes.symm.trans impossible
  · have unchanged : (crew.shared.apply depthMetric id _).SameAt crew.shared document :=
      apply_other same depthMetric (task.next depthMetric crew.shared.node id).1
    exact here.mono (fun item => (unchanged.stored item).mpr) unchanged.registered.mpr
      fun _ miss => unchanged.resident.trans miss

theorem Relies.step (relies : crew.Relies) (tidy : crew.Tidy depthMetric turn) :
    (crew.step depthMetric turn).Relies := by
  refine Crew.forall_step
    (fun (tracked : Tracked) (task : SedimentreeId × Task) => task.2.Relies tracked.node task.1) relies
    (fun operation _ => ?_) (fun before task after isAdvance split => ?_) fun id _ task member => ?_
  · obtain ⟨id, operation⟩ := operation
    cases operation <;> exact trivial
  · obtain ⟨id, task⟩ := task
    have inside : (id, task) ∈ crew.tasks := by
      rw [split]
      exact mem_append_right _ mem_cons_self
    have about : crew.effect? depthMetric turn =
        some (id, (task.next depthMetric crew.shared.node id).1) := by
      rw [isAdvance]
      exact effect?_advance split
    have own := Task.Relies.next (relies (id, task) inside) (Prod.mk.eta).symm (tidy.distinct _ about)
    exact ⟨own.2, fun other member => relies.others tidy.apart split member⟩
  · refine (relies task member).mono (fun _ has => has) (fun member => member) fun _ miss => ?_
    by_cases same : task.1 = id
    · rw [same]
      exact evict_resident
    · exact (evict_other same).resident.trans miss

theorem Relies.backed (relies : crew.Relies) (tidy : crew.Tidy depthMetric turn) :
    crew.Backed depthMetric turn := by
  intro about isAbout
  cases turn with
  | start operation => exact nomatch isAbout
  | outside id => exact nomatch isAbout
  | advance index =>
    obtain ⟨task, isTask, rfl⟩ := Option.map_eq_some_iff.mp isAbout
    exact (Task.Relies.next (relies task (mem_of_getElem? isTask)) (Prod.mk.eta).symm
      (tidy.distinct _ isAbout)).1

end NodeCrew

theorem backed_of_apart {depthMetric : DepthMetric} {storage : MemoryStorage} {turns : List NodeTurn}
    (tidy : Along (NodeCrew.step depthMetric) (NodeCrew.Tidy depthMetric) (.start storage) turns) :
    Along (NodeCrew.step depthMetric) (NodeCrew.Backed depthMetric) (.start storage) turns :=
  tidy.imp (fun _ _ => NodeCrew.Relies.step) (fun _ _ => NodeCrew.Relies.backed)
    fun _ member => nomatch member

end Subduction
