/-
**What a resident tree has is stored, unless a removal overlaps a lookup or an insert.**

A removal drops the resident tree first and deletes the commits, the fragments and the registration in
three later steps. A lookup that loaded before the deletion installs what it loaded after it, and the
node advertises commits that it no longer has (`removed_tree_resident`).

Main result: `resident_backed`.
-/

import Subduction.Node.Scope
import Subduction.Node.Tasks

set_option linter.unusedSectionVars false

namespace Subduction

open Sedimentree Tracked ItemStore

/-! ### What a tree advertises -/

section Advertised

variable [SipHash24] [IterOrder CommitId] {tree : Sedimentree} {seed : FingerprintSeed} {fp : Fingerprint}

/-- The item is advertised under the fingerprint: a commit under its head, a fragment under its head
and its boundary. -/
def Item.Shows (seed : FingerprintSeed) (fp : Fingerprint) : Item → Prop
  | commit payload => Fingerprint.new seed payload.head = fp
  | fragment payload => Fingerprint.new seed payload.head = fp ∨
      ∃ id ∈ payload.boundary, Fingerprint.new seed id = fp

theorem exists_shows (advertised : fp ∈ (tree.fingerprintSummarize seed).commitFingerprints) :
    ∃ item, tree.Has item ∧ item.Shows seed fp := by
  obtain ⟨id, known, isFp⟩ := mem_advertised.mp advertised
  rcases known with loose | isHead | ⟨head, fragment, stored, inBoundary⟩
  · obtain ⟨commit, stored⟩ := mem_commitKeys.mp loose
    obtain rfl := head_of_commit? stored
    exact ⟨.commit commit, stored, isFp⟩
  · obtain ⟨fragment, stored⟩ := mem_fragmentKeys.mp isHead
    obtain rfl := head_of_fragment? stored
    exact ⟨.fragment fragment, stored, Or.inl isFp⟩
  · obtain rfl := head_of_fragment? stored
    exact ⟨.fragment fragment, stored, Or.inr ⟨id, inBoundary, isFp⟩⟩

theorem exists_fragment_shows (advertised : fp ∈ (tree.fingerprintSummarize seed).fragmentFingerprints) :
    ∃ fragment, tree.Has (.fragment fragment) ∧ Fingerprint.new seed fragment.head = fp := by
  obtain ⟨id, isHead, isFp⟩ := mem_fragmentFingerprints.mp advertised
  obtain ⟨fragment, stored⟩ := mem_fragmentKeys.mp isHead
  obtain rfl := head_of_fragment? stored
  exact ⟨fragment, stored, isFp⟩

end Advertised

section Backing

variable [Blake3] [Bijou64Codec] [IterOrder CommitId] [IterOrder (Digest LooseCommit)]
  [IterOrder (Digest Fragment)]

/-! ### The condition -/

/-- **What a step gives to a tree is stored at that moment**, a tree without items is installed for a
registered document, and nothing is deleted of a resident one. -/
def Effect.Backed (node : Node) (id : SedimentreeId) : Effect → Prop
  | install _ content => (∀ item, content.Has item → node.storage.Has id item) ∧
      (content.isEmpty = true → id ∈ node.storage.ids)
  | give item => node.storage.Has id item
  | deleteLooseCommits => node.sedimentrees id = none
  | deleteFragments => node.sedimentrees id = none
  | deleteSedimentreeId => node.sedimentrees id = none
  | _ => True

instance (node : Node) (id : SedimentreeId) : ∀ effect : Effect, Decidable (effect.Backed node id)
  | .install _ _ => inferInstanceAs (Decidable (_ ∧ (_ → _)))
  | .give item => inferInstanceAs (Decidable (node.storage.Has id item))
  | .deleteLooseCommits => inferInstanceAs (Decidable (_ = _))
  | .deleteFragments => inferInstanceAs (Decidable (_ = _))
  | .deleteSedimentreeId => inferInstanceAs (Decidable (_ = _))
  | .nothing => isTrue trivial
  | .minimize => isTrue trivial
  | .save _ => isTrue trivial
  | .drop => isTrue trivial

namespace NodeCrew

/-- The turn has no effect that is not backed. -/
def Backed (depthMetric : DepthMetric) (crew : NodeCrew) (turn : NodeTurn) : Prop :=
  ∀ about ∈ crew.effect? depthMetric turn, about.2.Backed crew.shared.node about.1

instance (depthMetric : DepthMetric) (crew : NodeCrew) (turn : NodeTurn) :
    Decidable (crew.Backed depthMetric turn) :=
  inferInstanceAs (Decidable (∀ about ∈ crew.effect? depthMetric turn, _))

end NodeCrew

/-! ### What resident trees were given -/

variable {depthMetric : DepthMetric} {id : SedimentreeId} {tracked : Tracked} {effect : Effect}

theorem Content.Made.has {content : Content} {owner : MinimizedSedimentree}
    (made : content.Made depthMetric owner) {item : Item} (has : owner.tree.Has item) :
    content.Has item := by
  rcases made with rfl | rfl
  · exact Content.has_of_has_tree has
  · exact Content.has_of_has_tree (has_minimizeInPlace has)

theorem Item.has_addTo {item other : Item} {owner : MinimizedSedimentree}
    (has : (item.addTo owner).tree.Has other) : owner.tree.Has other ∨ other = item := by
  cases item with
  | commit payload => exact has_addCommit has
  | fragment payload => exact has_addFragment has

/-- **The resident tree has only what it was given, and that is stored.** -/
def Tracked.Covered (tracked : Tracked) (id : SedimentreeId) : Prop :=
  ∀ owner, tracked.node.sedimentrees id = some owner →
    (∀ item, owner.tree.Has item → (tracked.given id).Has item) ∧
      ∀ item, (tracked.given id).Has item → tracked.node.storage.Has id item

theorem Tracked.Covered.congr {first second : Tracked}
    (same : first.SameAt second id) (covered : second.Covered id) : first.Covered id := by
  intro owner resident
  rw [same.resident] at resident
  rw [same.given]
  exact ⟨(covered owner resident).1, fun item has => (same.stored item).mpr ((covered owner resident).2 item has)⟩

theorem Tracked.Covered.apply
    {removing : Bool} {before after : Option Item} (covered : tracked.Covered id)
    (backed : effect.Backed tracked.node id)
    (kind : StepKind depthMetric (tracked.node.sedimentrees id) removing before effect after) :
    (tracked.apply depthMetric id effect).Covered id := by
  intro owner resident
  cases kind with
  | idles isNothing =>
    subst isNothing
    exact covered owner resident
  | reads found hit isMinimize =>
    subst isMinimize
    simp only [Tracked.apply, hit, install_resident, Option.some.injEq] at resident
    simp only [Tracked.apply, hit, install_given]
    subst resident
    refine ⟨fun item has => ?_, (covered found hit).2⟩
    exact (covered found hit).1 item (MinimizedSedimentree.has_ensureMinimized has)
  | installs found content miss made isInstall =>
    subst isInstall
    simp only [Tracked.apply, install_resident, Option.some.injEq] at resident
    simp only [Tracked.apply, install_given]
    subst resident
    exact ⟨fun item has => made.has has, backed.1⟩
  | gives found item hit isGive =>
    subst isGive
    simp only [Tracked.apply, hit, install_resident, Option.some.injEq] at resident
    simp only [Tracked.apply, hit, install_given, Content.has_give]
    subst resident
    refine ⟨fun other has => ?_, fun other has => ?_⟩
    · exact (Item.has_addTo has).imp_left ((covered found hit).1 other)
    · rcases has with old | rfl
      · exact (covered found hit).2 other old
      · exact backed
  | saves verified isSave =>
    subst isSave
    exact ⟨(covered owner resident).1, fun item has => ((covered owner resident).2 item has).save verified⟩
  | removes removal =>
    cases effect with
    | drop => exact absurd (resident.symm.trans evict_resident) (by simp)
    | deleteLooseCommits | deleteFragments | deleteSedimentreeId =>
      exact absurd (resident.symm.trans backed) (by simp)
    | _ => exact removal.elim

theorem NodeCrew.covered_step {crew : NodeCrew} {turn : NodeTurn}
    (covered : ∀ id, crew.shared.Covered id) (backed : crew.Backed depthMetric turn) :
    ∀ id, (crew.step depthMetric turn).shared.Covered id := by
  refine NodeCrew.forall_documents_step (fun _ _ _ same => Tracked.Covered.congr same) ?_ ?_ covered
  · intro id owner resident
    exact absurd (resident.symm.trans evict_resident) (by simp)
  · intro before after id task later effect advanced here
    exact here.apply (backed _ advanced.about) advanced.kind

/-! ### A removal with no insert after it -/

/-- Nothing of the document is left. -/
def Node.Gone (node : Node) (id : SedimentreeId) : Prop :=
  node.sedimentrees id = none ∧ id ∉ node.storage.ids ∧ ∀ item, ¬ node.storage.Has id item

/-- **What a removal has deleted so far.** -/
def Task.Removing (node : Node) (id : SedimentreeId) : Task → Prop
  | removeSedimentree => True
  | deleteLooseCommits => True
  | deleteFragments => ∀ payload, ¬ node.storage.Has id (.commit payload)
  | deleteSedimentreeId => ∀ item, ¬ node.storage.Has id item
  | _ => False

theorem Tracked.has_of_apply (noSave : ∀ verified, effect ≠ .save verified) {item : Item}
    (has : (tracked.apply depthMetric id effect).node.storage.Has id item) :
    tracked.node.storage.Has id item := by
  cases effect with
  | minimize =>
    unfold apply at has
    dsimp only at has
    cases hit : tracked.node.sedimentrees id with
    | some owner =>
      rw [hit] at has
      exact has
    | none =>
      rw [hit] at has
      exact has
  | give given =>
    unfold apply at has
    dsimp only at has
    cases hit : tracked.node.sedimentrees id with
    | some owner =>
      rw [hit] at has
      exact has
    | none =>
      rw [hit] at has
      exact has
  | save verified => exact absurd rfl (noSave verified)
  | deleteLooseCommits =>
    cases item with
    | commit payload => exact (has_delete.mp has).2
    | fragment payload => exact has
  | deleteFragments =>
    cases item with
    | commit payload => exact has
    | fragment payload => exact (has_delete.mp has).2
  | _ => exact has

theorem StepKind.noSave {resident : Option MinimizedSedimentree}
    {removing : Bool} {after : Option Item}
    (kind : StepKind depthMetric resident removing none effect after)
    (verified : VerifiedItem) : effect ≠ .save verified := by
  intro isSave
  subst isSave
  cases kind with
  | idles isNothing => exact nomatch isNothing
  | reads _ _ isMinimize => exact nomatch isMinimize
  | installs _ _ _ _ isInstall => exact nomatch isInstall
  | gives _ _ _ isGive => exact nomatch isGive
  | saves _ _ was => exact nomatch was
  | removes removal => exact removal

theorem Task.Removing.mono {first second : Node} {task : Task}
    (fewer : ∀ item, first.storage.Has id item → second.storage.Has id item)
    (removing : task.Removing second id) : task.Removing first id := by
  cases task with
  | deleteFragments => exact fun payload has => removing payload (fewer _ has)
  | deleteSedimentreeId => exact fun item has => removing item (fewer _ has)
  | _ => exact removing

theorem Node.Gone.congr {first second : Tracked} (same : first.SameAt second id)
    (gone : second.node.Gone id) : first.node.Gone id := by
  obtain ⟨miss, unregistered, nothing⟩ := gone
  refine ⟨same.resident.trans miss, fun member => unregistered (same.registered.mp member), ?_⟩
  exact fun item has => nothing item ((same.stored item).mp has)

theorem Node.Gone.apply
    {removing : Bool} {after : Option Item} (gone : tracked.node.Gone id)
    (backed : effect.Backed tracked.node id)
    (kind : StepKind depthMetric (tracked.node.sedimentrees id) removing none effect after) :
    (tracked.apply depthMetric id effect).node.Gone id := by
  obtain ⟨miss, unregistered, nothing⟩ := gone
  have noSave := kind.noSave
  cases kind with
  | idles isNothing =>
    rw [isNothing]
    exact ⟨miss, unregistered, nothing⟩
  | reads owner hit => exact absurd (miss.symm.trans hit) (by simp)
  | installs owner content _ made isInstall =>
    rw [isInstall] at backed
    have empty : content.isEmpty = true := by
      obtain ⟨commits, fragments⟩ := content
      cases commits with
      | cons commit commits => exact absurd (backed.1 (.commit commit) List.mem_cons_self) (nothing _)
      | nil =>
        cases fragments with
        | cons fragment fragments =>
          exact absurd (backed.1 (.fragment fragment) List.mem_cons_self) (nothing _)
        | nil => rfl
    exact absurd (backed.2 empty) unregistered
  | gives owner item hit => exact absurd (miss.symm.trans hit) (by simp)
  | saves verified isSave was => exact nomatch was
  | removes removal =>
    have fewer : ∀ item, ¬ (tracked.apply depthMetric id effect).node.storage.Has id item :=
      fun item has => nothing item (has_of_apply noSave has)
    cases effect with
    | drop => exact ⟨evict_resident, unregistered, fewer⟩
    | deleteLooseCommits => exact ⟨miss, unregistered, fewer⟩
    | deleteFragments => exact ⟨miss, unregistered, fewer⟩
    | deleteSedimentreeId =>
      exact ⟨miss, fun member => unregistered (Finset.mem_of_mem_erase member), fewer⟩
    | _ => exact removal.elim

/-- **The own step of a removal** goes on with the next deletion, and the last one leaves nothing. -/
theorem Task.Removing.next
    {task later : Task} (removing : task.Removing tracked.node id)
    (step : task.next depthMetric tracked.node id = (effect, later))
    (backed : effect.Backed tracked.node id) :
    (tracked.apply depthMetric id effect).node.Gone id ∨
      later.Removing (tracked.apply depthMetric id effect).node id := by
  cases task with
  | removeSedimentree =>
    obtain ⟨rfl, rfl⟩ := Prod.mk.inj step
    exact Or.inr trivial
  | deleteLooseCommits =>
    obtain ⟨rfl, rfl⟩ := Prod.mk.inj step
    exact Or.inr fun payload has => (has_delete.mp has).1 rfl
  | deleteFragments =>
    obtain ⟨rfl, rfl⟩ := Prod.mk.inj step
    refine Or.inr fun item has => ?_
    cases item with
    | commit payload => exact removing payload has
    | fragment payload => exact (has_delete.mp has).1 rfl
  | deleteSedimentreeId =>
    obtain ⟨rfl, rfl⟩ := Prod.mk.inj step
    exact Or.inl ⟨backed, fun member => Finset.ne_of_mem_erase member rfl, removing⟩
  | _ => exact removing.elim

namespace NodeCrew

/-- **A removal is under way or nothing is left**, and no insert is under way. -/
structure Leaving (crew : NodeCrew) (id : SedimentreeId) : Prop where
  noInsert : ∀ item, ¬ crew.InFlight id item
  removal : crew.shared.node.Gone id ∨
    ∃ task, (id, task) ∈ crew.tasks ∧ task.Removing crew.shared.node id

variable {depthMetric : DepthMetric} {crew : NodeCrew} {turn : NodeTurn} {id : SedimentreeId}

theorem Leaving.step (leaving : crew.Leaving id) (backed : crew.Backed depthMetric turn)
    (noInsert : ∀ verified, turn ≠ .start (id, .insertLocally verified)) :
    (crew.step depthMetric turn).Leaving id := by
  rcases crew.step_cases depthMetric turn with ⟨other, operation, isStart, result⟩ |
    ⟨before, after, other, task, later, effect, advanced⟩ | result | ⟨other, -, result⟩
  · rw [result]
    refine ⟨fun item inFlight => ?_, leaving.removal.imp_right fun ⟨task, member, removing⟩ =>
      ⟨task, List.mem_append_left _ member, removing⟩⟩
    obtain ⟨task, member, isId, inserts⟩ := inFlight
    rcases List.mem_append.mp member with old | new
    · exact leaving.noInsert item ⟨task, old, isId, inserts⟩
    · rw [List.mem_singleton.mp new] at isId inserts
      cases operation with
      | insertLocally verified => exact noInsert verified (isId ▸ isStart)
      | _ => exact nomatch inserts
  · refine ⟨fun item inFlight => leaving.noInsert item (advanced.inFlight inFlight), ?_⟩
    have shared : (crew.step depthMetric turn).shared = crew.shared.apply depthMetric other effect := by
      rw [advanced.result]
    rw [shared]
    by_cases same : other = id
    · subst same
      have noItem : task.inserting = none := Option.eq_none_iff_forall_ne_some.mpr fun item inserts =>
        leaving.noInsert item ⟨(other, task), advanced.mem, rfl, inserts⟩
      have kind := advanced.kind
      rw [noItem] at kind
      rcases leaving.removal with gone | ⟨found, member, removing⟩
      · exact Or.inl (gone.apply (backed _ advanced.about) kind)
      · rcases advanced.mem_step member with stays | isTask
        · refine Or.inr ⟨found, stays, removing.mono fun item has => has_of_apply ?_ has⟩
          exact kind.noSave
        · obtain ⟨-, rfl⟩ := Prod.mk.inj isTask
          exact (removing.next advanced.next (backed _ advanced.about)).imp_right fun goesOn =>
            ⟨later, advanced.mem_later, goesOn⟩
    · have apart : (crew.shared.apply depthMetric other effect).SameAt crew.shared id :=
        apply_other (Ne.symm same) depthMetric effect
      refine leaving.removal.imp (Node.Gone.congr apart) fun ⟨found, member, removing⟩ => ?_
      refine ⟨found, (advanced.mem_step member).resolve_right fun isTask => ?_,
        removing.mono fun item => (apart.stored item).mp⟩
      exact same (Prod.mk.inj isTask).1.symm
  · rw [result]
    exact leaving
  · rw [result]
    refine ⟨leaving.noInsert, leaving.removal.imp_left fun gone => ?_⟩
    by_cases same : id = other
    · subst same
      exact ⟨evict_resident, gone.2⟩
    · exact gone.congr (evict_other same)

theorem Quiet.not_inFlight (quiet : crew.Quiet) {item : Item} : ¬ crew.InFlight id item := by
  intro inFlight
  obtain ⟨task, member, -, inserts⟩ := inFlight
  have isDone := quiet task member
  obtain ⟨other, task⟩ := task
  cases task with
  | done => exact nomatch inserts
  | _ => exact nomatch isDone

theorem Leaving.gone (leaving : crew.Leaving id) (quiet : crew.Quiet) : crew.shared.node.Gone id := by
  rcases leaving.removal with gone | ⟨task, member, removing⟩
  · exact gone
  · have isDone : task.isDone = true := quiet (id, task) member
    cases task with
    | done => exact removing.elim
    | _ => exact nomatch isDone

end NodeCrew

/-- **What a resident tree has is stored**, and so is what it advertises, in every run of backed steps
when no task is under way; and a tree that was removed after the last insert is not resident. -/
theorem resident_backed [SipHash24] (depthMetric : DepthMetric) (storage : MemoryStorage)
    (turns : List NodeTurn)
    (backed : Along (NodeCrew.step depthMetric) (NodeCrew.Backed depthMetric) (.start storage) turns) :
    let crew := (NodeCrew.start storage).run depthMetric turns
    crew.Quiet → (∀ id owner, crew.shared.node.sedimentrees id = some owner →
        (∀ item, owner.tree.Has item → crew.shared.node.storage.Has id item) ∧
        ∀ seed, let summary := (owner.minimized depthMetric).2.fingerprintSummarize seed
          (∀ fp ∈ summary.commitFingerprints,
            ∃ item, crew.shared.node.storage.Has id item ∧ item.Shows seed fp) ∧
          ∀ fp ∈ summary.fragmentFingerprints, ∃ fragment,
            crew.shared.node.storage.Has id (.fragment fragment) ∧
              Fingerprint.new seed fragment.head = fp) ∧
      ∀ id before after, turns = before ++ .start (id, .removeSedimentree) :: after →
        (∀ item, ¬ ((NodeCrew.start storage).run depthMetric before).InFlight id item) →
          (∀ verified, .start (id, .insertLocally verified) ∉ after) →
            crew.shared.node.sedimentrees id = none := by
  intro crew quiet
  refine ⟨fun id owner resident => ?_, fun id before after split noInsert noLater => ?_⟩
  · have covered := backed.keeps (fun _ _ => NodeCrew.covered_step)
      (fun id owner resident => nomatch resident) id owner resident
    have stored : ∀ item, owner.tree.Has item → crew.shared.node.storage.Has id item :=
      fun item has => covered.2 item (covered.1 item has)
    refine ⟨stored, fun seed => ⟨fun fp advertised => ?_, fun fp advertised => ?_⟩⟩
    · obtain ⟨item, has, shows⟩ := exists_shows advertised
      exact ⟨item, stored item (MinimizedSedimentree.has_ensureMinimized has), shows⟩
    · obtain ⟨fragment, has, isFp⟩ := exists_fragment_shows advertised
      exact ⟨fragment, stored _ (MinimizedSedimentree.has_ensureMinimized has), isFp⟩
  · subst split
    -- the removal starts where no insert is under way, and no later turn starts one
    obtain ⟨-, -, later⟩ := backed.append
    have starts : (((NodeCrew.start storage).run depthMetric before).step depthMetric
        (.start (id, .removeSedimentree))).Leaving id := by
      refine ⟨fun item inFlight => ?_, Or.inr ⟨.removeSedimentree, ?_, trivial⟩⟩
      · obtain ⟨task, member, isId, inserts⟩ := inFlight
        rcases List.mem_append.mp member with old | new
        · exact noInsert item ⟨task, old, isId, inserts⟩
        · rw [List.mem_singleton.mp new] at inserts
          exact nomatch inserts
      · exact List.mem_append_right _ List.mem_cons_self
    have noStart : ∀ turn ∈ after, ∀ verified, turn ≠ .start (id, .insertLocally verified) :=
      fun turn member verified isInsert => noLater verified (isInsert ▸ member)
    have result : crew = after.foldl (NodeCrew.step depthMetric)
        (((NodeCrew.start storage).run depthMetric before).step depthMetric
          (.start (id, .removeSedimentree))) := by
      show (before ++ .start (id, .removeSedimentree) :: after).foldl _ _ = _
      rw [List.foldl_append]
      rfl
    have along := later.and_mem noStart
    have leaving : crew.Leaving id := by
      rw [result]
      exact along.keeps (fun _ _ (leaving : NodeCrew.Leaving _ id) both =>
        leaving.step both.1 both.2) starts
    exact (leaving.gone quiet).1

/-- A read loads a document, the document is removed, and the read goes on. -/
def removedTurns : List NodeTurn :=
  [.start (⟨1⟩, .getOrHydrate), .advance 0, .advance 0, .advance 0, .start (⟨1⟩, .removeSedimentree),
    .advance 1, .advance 1, .advance 1, .advance 1, .advance 0]

end Backing

/-! ### A removal during a lookup -/

attribute [local instance] IterOrder.ascending eightBytes lastBytes numberHash

/-- The commit of document `1`, verified. -/
def verifiedOfOne : VerifiedMeta LooseCommit :=
  ⟨⟨signedOfOne, commitOfOne, by decide +kernel⟩, oneByte, rfl⟩

def storageOfOne : MemoryStorage :=
  MemoryStorage.new.saveLooseCommit ⟨1⟩ verifiedOfOne

def removedCrew : NodeCrew :=
  (NodeCrew.start storageOfOne).run (fun _ => 0) removedTurns

/-- **A removed tree is resident**, with a commit that is not stored. -/
theorem removed_tree_resident : removedCrew.Quiet ∧
      (removedCrew.shared.node.sedimentrees ⟨1⟩).map (fun owner => owner.tree.commit? ⟨5⟩) =
        some (some commitOfOne) ∧
      ¬ removedCrew.shared.node.storage.Has ⟨1⟩ (.commit commitOfOne) := by
  decide +kernel

/-- The commit is inserted into documents `1` and `2`, and document `1` is evicted and requested. -/
def keptTurns : List NodeTurn :=
  .start (⟨1⟩, .insertLocally (.commit verifiedOfOne)) :: List.replicate 9 (.advance 0) ++
    .start (⟨2⟩, .insertLocally (.commit verifiedOfOne)) :: List.replicate 9 (.advance 1) ++
    .outside ⟨1⟩ :: .start (⟨1⟩, .recvBatchSyncRequest true) :: List.replicate 4 (.advance 2)

/-- Then document `2` is removed. -/
def backedTurns : List NodeTurn :=
  keptTurns ++ .start (⟨2⟩, .removeSedimentree) :: List.replicate 4 (.advance 3)

def backedCrew : NodeCrew :=
  (NodeCrew.start .new).run (fun _ => 0) backedTurns

theorem backedTurns_run :
    Along (NodeCrew.step fun _ => 0) (NodeCrew.Backed fun _ => 0) (.start .new) backedTurns ∧
      ((NodeCrew.start .new).run (fun _ => 0) keptTurns).Quiet ∧ backedCrew.Quiet ∧
      (backedCrew.shared.node.sedimentrees ⟨1⟩).map (fun owner => owner.tree.commit? ⟨5⟩) =
        some (some commitOfOne) := by
  decide +kernel

theorem resident_backed_request :
    Along (NodeCrew.step fun _ => 0) (NodeCrew.Backed fun _ => 0) (.start .new) backedTurns ∧
      (∃ owner, backedCrew.shared.node.sedimentrees ⟨1⟩ = some owner ∧
        owner.tree.commit? ⟨5⟩ = some commitOfOne ∧
        ∀ item, owner.tree.Has item → backedCrew.shared.node.storage.Has ⟨1⟩ item) ∧
      backedCrew.shared.node.sedimentrees ⟨2⟩ = none := by
  obtain ⟨backed, keptQuiet, quiet, resident⟩ := backedTurns_run
  obtain ⟨owner, isResident, has⟩ := Option.map_eq_some_iff.mp resident
  have both := @resident_backed lastBytes eightBytes (IterOrder.ascending CommitId)
    (IterOrder.ascending _) (IterOrder.ascending _) numberHash (fun _ => 0) _ backedTurns backed quiet
  have removed := both.2 ⟨2⟩ keptTurns (List.replicate 4 (.advance 3)) rfl
    (fun item => @NodeCrew.Quiet.not_inFlight lastBytes eightBytes (IterOrder.ascending CommitId)
      (IterOrder.ascending _) (IterOrder.ascending _) _ _ keptQuiet item)
    (fun verified member => nomatch List.eq_of_mem_replicate member)
  exact ⟨backed, ⟨owner, isResident, has, (both.1 ⟨1⟩ owner isResident).1⟩, removed⟩

end Subduction
