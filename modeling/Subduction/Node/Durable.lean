/-
**What is stored was given to the resident tree, unless a lookup installs an old snapshot.**

A lookup loads on a miss with no lock held and installs what it loaded in a later step. When an insert
of the document saves and adds its item in between and the tree is evicted, the snapshot that is
installed lacks the item, and nothing brings it in (`stale_snapshot_resident`).

Main result: `resident_complete`.
-/

import Subduction.Convergence.Schedule
import Subduction.Node.Apart

set_option linter.unusedSectionVars false

namespace Subduction

open Tracked

section Durable

variable [Blake3] [Bijou64Codec] [IterOrder CommitId] [IterOrder (Digest LooseCommit)]
  [IterOrder (Digest Fragment)]

/-! ### Nothing stored is missing -/

/-- **What is stored when a tree is installed is in the tree**, or belongs to an insert under way. -/
def Effect.Fresh (crew : NodeCrew) (id : SedimentreeId) : Effect → Prop
  | install _ content => ∀ item, (crew.shared.node.storage.content id).Has item →
      content.Has item ∨ crew.InFlight id item
  | _ => True

instance (crew : NodeCrew) (id : SedimentreeId) : ∀ effect : Effect, Decidable (effect.Fresh crew id)
  | .install _ content => inferInstanceAs (Decidable (∀ item,
      (crew.shared.node.storage.content id).Has item → content.Has item ∨ crew.InFlight id item))
  | .nothing => isTrue trivial
  | .minimize => isTrue trivial
  | .give _ => isTrue trivial
  | .save _ => isTrue trivial
  | .drop => isTrue trivial
  | .deleteLooseCommits => isTrue trivial
  | .deleteFragments => isTrue trivial
  | .deleteSedimentreeId => isTrue trivial

namespace NodeCrew

/-- The turn installs no snapshot that lacks something. -/
def Fresh (depthMetric : DepthMetric) (crew : NodeCrew) (turn : NodeTurn) : Prop :=
  ∀ about ∈ crew.effect? depthMetric turn, about.2.Fresh crew about.1

instance (depthMetric : DepthMetric) (crew : NodeCrew) (turn : NodeTurn) :
    Decidable (crew.Fresh depthMetric turn) :=
  inferInstanceAs (Decidable (∀ about ∈ crew.effect? depthMetric turn, _))

/-- **What is stored was given to the resident tree**, or belongs to an insert under way. -/
def Complete (crew : NodeCrew) : Prop :=
  ∀ id owner, crew.shared.node.sedimentrees id = some owner →
    ∀ item, crew.shared.node.storage.Has id item →
      (crew.shared.given id).Has item ∨ crew.InFlight id item

variable {depthMetric : DepthMetric} {crew : NodeCrew} {turn : NodeTurn}
  {before after : List (SedimentreeId × Task)} {id : SedimentreeId} {task later : Task} {effect : Effect}

theorem Advanced.inFlight_step
    (advanced : crew.Advanced depthMetric turn before after id task later effect)
    {other : SedimentreeId} {item : Item} (inFlight : crew.InFlight other item) :
    (crew.step depthMetric turn).InFlight other item ∨ (other = id ∧ task.inserting = some item) := by
  obtain ⟨found, member, isId, inserts⟩ := inFlight
  rcases advanced.mem_step member with stays | rfl
  · exact Or.inl ⟨found, stays, isId, inserts⟩
  · exact Or.inr ⟨isId.symm, inserts⟩

/-- The document of a step: what is stored is given, or its insert is under way. -/
theorem Complete.advance (complete : crew.Complete) (fresh : crew.Fresh depthMetric turn)
    (advanced : crew.Advanced depthMetric turn before after id task later effect)
    {owner : MinimizedSedimentree}
    (resident : (crew.shared.apply depthMetric id effect).node.sedimentrees id = some owner)
    {item : Item} (stored : (crew.shared.apply depthMetric id effect).node.storage.Has id item) :
    ((crew.shared.apply depthMetric id effect).given id).Has item ∨
      (crew.step depthMetric turn).InFlight id item := by
  -- an insert under way goes on, when the step does not finish it
  have goesOn : (later.inserting = task.inserting) → crew.InFlight id item →
      (crew.step depthMetric turn).InFlight id item := by
    intro same inFlight
    rcases advanced.inFlight_step inFlight with stays | ⟨-, inserts⟩
    · exact stays
    · exact ⟨(id, later), advanced.mem_later, rfl, same.trans inserts⟩
  cases advanced.kind with
  | idles isNothing same =>
    subst isNothing
    exact (complete id owner resident item stored).imp_right (goesOn same)
  | reads found hit isMinimize same =>
    subst isMinimize
    simp only [Tracked.apply, hit] at stored ⊢
    rw [install_given]
    exact (complete id found hit item stored).imp_right (goesOn same)
  | installs found content miss made isInstall continues was =>
    subst isInstall
    simp only [Tracked.apply, install_given]
    have present : content.Has item ∨ crew.InFlight id item :=
      fresh _ advanced.about item (MemoryStorage.content_has.mpr stored)
    rcases present with loaded | inFlight
    · exact Or.inl loaded
    · rcases advanced.inFlight_step inFlight with stays | ⟨-, inserts⟩
      · exact Or.inr stays
      · exact (continues item inserts).symm.imp_right fun still =>
          ⟨(id, later), advanced.mem_later, rfl, still⟩
  | gives found given hit isGive was ends =>
    subst isGive
    simp only [Tracked.apply, hit] at stored ⊢
    rw [install_given, Content.has_give]
    rcases complete id found hit item stored with old | inFlight
    · exact Or.inl (Or.inl old)
    · rcases advanced.inFlight_step inFlight with stays | ⟨-, inserts⟩
      · exact Or.inr stays
      · exact Or.inl (Or.inr (Option.some.inj (inserts.symm.trans was)))
  | saves verified isSave was same =>
    subst isSave
    rcases VerifiedItem.has_save stored with old | ⟨-, rfl⟩
    · exact (complete id owner resident item old).imp_right (goesOn same)
    · exact Or.inr ⟨(id, later), advanced.mem_later, rfl, same.trans was⟩
  | removes removal same =>
    have noSave : ∀ verified, effect ≠ .save verified := by
      intro verified isSave
      exact (isSave ▸ removal : (Effect.save verified).Removes)
    have old := has_of_apply noSave stored
    cases effect with
    | drop => exact absurd (resident.symm.trans evict_resident) (by simp)
    | deleteLooseCommits | deleteFragments | deleteSedimentreeId =>
      exact (complete id owner resident item old).imp_right (goesOn same)
    | _ => exact removal.elim

theorem Complete.step (complete : crew.Complete) (fresh : crew.Fresh depthMetric turn) :
    (crew.step depthMetric turn).Complete := by
  intro id owner resident item stored
  rcases crew.step_cases depthMetric turn with ⟨other, operation, -, result⟩ |
    ⟨before, after, other, task, later, effect, advanced⟩ | result | ⟨other, -, result⟩
  · rw [result] at resident stored ⊢
    refine (complete id owner resident item stored).imp_right fun inFlight => ?_
    obtain ⟨task, member, isId, inserts⟩ := inFlight
    exact ⟨task, List.mem_append_left _ member, isId, inserts⟩
  · have shared : (crew.step depthMetric turn).shared = crew.shared.apply depthMetric other effect := by
      rw [advanced.result]
    rw [shared] at resident stored ⊢
    by_cases same : id = other
    · subst same
      exact complete.advance fresh advanced resident stored
    · have unchanged : (crew.shared.apply depthMetric other effect).SameAt crew.shared id :=
        apply_other same depthMetric effect
      rw [unchanged.resident] at resident
      rw [unchanged.given]
      refine (complete id owner resident item ((unchanged.stored item).mp stored)).imp_right
        fun inFlight => ?_
      exact (advanced.inFlight_step inFlight).resolve_right fun both => same both.1
  · rw [result] at resident stored ⊢
    exact complete id owner resident item stored
  · rw [result] at resident stored ⊢
    by_cases same : id = other
    · subst same
      exact absurd (resident.symm.trans evict_resident) (by simp)
    · rw [(evict_other same).resident] at resident
      exact complete id owner resident item stored

end NodeCrew

/-! ### The minimal form -/

def Item.call : Item → Call
  | commit payload => .addCommit payload
  | fragment payload => .addFragment payload

/-- No head of the content has two values. -/
structure Content.Single (content : Content) : Prop where
  commits : Subduction.Single content.commits
  fragments : Subduction.Single content.fragments

variable {content : Content} {depthMetric : DepthMetric}

theorem Content.Single.tree_congr {other : Content} (single : content.Single)
    (same : ∀ item, content.Has item ↔ other.Has item) : content.tree = other.tree :=
  congrArg₂ Sedimentree.mk (single.fragments.ofList_congr fun fragment => same (.fragment fragment))
    (single.commits.ofList_congr fun commit => same (.commit commit))

/-- **What the resident tree is given keeps it faithful**: the content of an installation is orderly and
has no second value for a head, and additions are clean calls. -/
def Effect.Clean (depthMetric : DepthMetric) (tracked : Tracked) (id : SedimentreeId) : Effect → Prop
  | install _ content => content.Single ∧ Orderly depthMetric content.tree
  | give item => ∀ owner, tracked.node.sedimentrees id = some owner →
      CleanCall depthMetric ⟨owner, (tracked.given id).tree⟩ item.call
  | _ => True

/-- The turn gives nothing to a tree that is not clean. -/
def NodeCrew.Clean (depthMetric : DepthMetric) (crew : NodeCrew) (turn : NodeTurn) : Prop :=
  ∀ about ∈ crew.effect? depthMetric turn, about.2.Clean depthMetric crew.shared about.1

/-- **The resident tree is faithful to what it was given.** -/
def Tracked.Synced (depthMetric : DepthMetric) (tracked : Tracked) (id : SedimentreeId) : Prop :=
  ∀ owner, tracked.node.sedimentrees id = some owner →
    Twin.Synced depthMetric ⟨owner, (tracked.given id).tree⟩ ∧ (tracked.given id).Single

theorem Content.Made.synced
    {owner : MinimizedSedimentree} (made : content.Made depthMetric owner)
    (orderly : Orderly depthMetric content.tree) :
    Twin.Synced depthMetric ⟨owner, content.tree⟩ := by
  rcases made with rfl | rfl
  · exact ⟨orderly.faithful_self, fun clean => nomatch clean⟩
  · exact ⟨orderly.faithful_minimize, fun _ => orderly.faithful_minimize.minimize_eq⟩

theorem Content.Single.give (single : content.Single)
    {owner : MinimizedSedimentree} {item : Item}
    (clean : CleanCall depthMetric ⟨owner, content.tree⟩ item.call) : (content.give item).Single := by
  cases item with
  | commit payload =>
    refine ⟨single.commits.concat fun w stored => ?_, single.fragments⟩
    exact clean.commitValues payload List.mem_cons_self w (Or.inl stored)
  | fragment payload =>
    refine ⟨single.commits, single.fragments.concat fun w stored => ?_⟩
    exact clean.fragmentValues payload List.mem_cons_self w (Or.inl stored)

theorem Twin.step_call (depthMetric : DepthMetric) (owner : MinimizedSedimentree) (content : Content)
    (item : Item) : Twin.step depthMetric ⟨owner, content.tree⟩ item.call =
      ⟨item.addTo owner, (content.give item).tree⟩ := by
  have given := congrArg MinimizedSedimentree.tree (content.tree_give item true)
  cases item with
  | commit payload => exact congrArg (Twin.mk _) given
  | fragment payload => exact congrArg (Twin.mk _) given

theorem Tracked.Synced.congr {first second : Tracked} {id : SedimentreeId}
    (same : first.SameAt second id) (synced : second.Synced depthMetric id) :
    first.Synced depthMetric id := by
  intro owner resident
  rw [same.resident] at resident
  rw [same.given]
  exact synced owner resident

theorem Tracked.Synced.apply {tracked : Tracked} {id : SedimentreeId}
    {effect : Effect} {removing : Bool} {before after : Option Item}
    (synced : tracked.Synced depthMetric id) (clean : effect.Clean depthMetric tracked id)
    (kind : StepKind depthMetric (tracked.node.sedimentrees id) removing before effect after) :
    (tracked.apply depthMetric id effect).Synced depthMetric id := by
  intro owner resident
  cases kind with
  | idles isNothing =>
    subst isNothing
    exact synced owner resident
  | reads found hit isMinimize =>
    subst isMinimize
    simp only [Tracked.apply, hit, install_resident, Option.some.injEq] at resident
    simp only [Tracked.apply, hit, install_given]
    subst resident
    obtain ⟨twin, single⟩ := synced found hit
    exact ⟨twin.ensureMinimized.1, single⟩
  | installs found content miss made isInstall =>
    subst isInstall
    simp only [Tracked.apply, install_resident, Option.some.injEq] at resident
    simp only [Tracked.apply, install_given]
    subst resident
    exact ⟨made.synced clean.2, clean.1⟩
  | gives found item hit isGive =>
    subst isGive
    simp only [Tracked.apply, hit, install_resident, Option.some.injEq] at resident
    simp only [Tracked.apply, hit, install_given]
    subst resident
    obtain ⟨twin, single⟩ := synced found hit
    have stepped := twin.step (clean found hit)
    rw [Twin.step_call] at stepped
    exact ⟨stepped, single.give (clean found hit)⟩
  | saves verified isSave =>
    subst isSave
    exact synced owner resident
  | removes removal =>
    cases effect with
    | drop => exact absurd (resident.symm.trans evict_resident) (by simp)
    | deleteLooseCommits => exact synced owner resident
    | deleteFragments => exact synced owner resident
    | deleteSedimentreeId => exact synced owner resident
    | _ => exact removal.elim

theorem NodeCrew.synced_step {crew : NodeCrew} {turn : NodeTurn}
    (synced : ∀ id, crew.shared.Synced depthMetric id) (clean : crew.Clean depthMetric turn) :
    ∀ id, (crew.step depthMetric turn).shared.Synced depthMetric id := by
  refine NodeCrew.forall_documents_step (fun _ _ _ same => Tracked.Synced.congr same) ?_ ?_ synced
  · intro id owner resident
    exact absurd (resident.symm.trans evict_resident) (by simp)
  · intro before after id task later effect advanced here
    exact here.apply (clean _ advanced.about) advanced.kind

/-- **A resident tree was given everything that is stored**, in every run of fresh installations, when
no insert of its document is under way. Where moreover no removal overlaps another task on its
document, no digest collides and the calls are clean, it minimizes to the minimal form of the stored
tree. -/
theorem resident_complete (depthMetric : DepthMetric) (storage : MemoryStorage) (turns : List NodeTurn)
    (fresh : Along (NodeCrew.step depthMetric) (NodeCrew.Fresh depthMetric) (.start storage) turns) :
    let crew := (NodeCrew.start storage).run depthMetric turns
    ∀ id owner, crew.shared.node.sedimentrees id = some owner → (∀ item, ¬ crew.InFlight id item) →
      (∀ item, crew.shared.node.storage.Has id item → (crew.shared.given id).Has item) ∧
      (Along (NodeCrew.step depthMetric) (NodeCrew.Tidy depthMetric) (.start storage) turns →
        Along (NodeCrew.step depthMetric) (NodeCrew.Clean depthMetric) (.start storage) turns →
          owner.tree.minimize depthMetric =
            (crew.shared.node.storage.storedTree id).minimize depthMetric) := by
  intro crew id owner resident noInsert
  have complete : crew.Complete := fresh.keeps (fun _ _ => NodeCrew.Complete.step)
    fun id owner resident => nomatch resident
  have given : ∀ item, crew.shared.node.storage.Has id item → (crew.shared.given id).Has item :=
    fun item stored => (complete id owner resident item stored).resolve_right (noInsert item)
  refine ⟨given, fun tidy clean => ?_⟩
  have covered := (backed_of_apart tidy).keeps (fun _ _ => NodeCrew.covered_step)
    (fun id owner resident => nomatch resident) id owner resident
  have synced := clean.keeps (fun _ _ => NodeCrew.synced_step)
    (fun id owner resident => nomatch resident) id owner resident
  have sameItems : ∀ item, (crew.shared.given id).Has item ↔
      (crew.shared.node.storage.content id).Has item := by
    intro item
    rw [MemoryStorage.content_has]
    exact ⟨covered.2 item, given item⟩
  rw [Sedimentree.minimize_eq_minimizeInPlace, Sedimentree.minimize_eq_minimizeInPlace,
    synced.1.faithful.minimize_eq]
  exact congrArg (·.minimizeInPlace depthMetric) (synced.2.tree_congr sameItems)

/-! ### One commit -/

/-- The step gives a tree nothing but the commit. -/
def Effect.Gives (commit : LooseCommit) (tracked : Tracked) (id : SedimentreeId) : Effect → Prop
  | install _ content => ∀ item, content.Has item → item = .commit commit
  | give item => item = .commit commit ∧ ∀ other, (tracked.given id).Has other → other = .commit commit
  | _ => True

instance (commit : LooseCommit) (tracked : Tracked) (id : SedimentreeId) :
    ∀ effect : Effect, Decidable (effect.Gives commit tracked id)
  | .install _ content => inferInstanceAs (Decidable (∀ item, content.Has item → item = .commit commit))
  | .give _ => inferInstanceAs (Decidable (_ ∧ ∀ other, (tracked.given id).Has other → _))
  | .nothing => isTrue trivial
  | .minimize => isTrue trivial
  | .save _ => isTrue trivial
  | .drop => isTrue trivial
  | .deleteLooseCommits => isTrue trivial
  | .deleteFragments => isTrue trivial
  | .deleteSedimentreeId => isTrue trivial

theorem Content.only_tree {commit : LooseCommit}
    (only : ∀ item, content.Has item → item = .commit commit) :
    Only branchFragment commit content.tree := by
  refine ⟨fun f fragment stored => ?_, fun c other stored => ?_⟩
  · have listed : content.Has (.fragment fragment) := Shelf.mem_of_get?_ofList stored
    exact nomatch only _ listed
  · have listed : content.Has (.commit other) := Shelf.mem_of_get?_ofList stored
    exact Item.commit.inj (only _ listed)

/-- **One commit without parents is clean**, however often it is given. -/
theorem Effect.Gives.clean {commit : LooseCommit} (root : commit.parents = ∅)
    {tracked : Tracked} {id : SedimentreeId} {effect : Effect} (gives : effect.Gives commit tracked id) :
    effect.Clean depthMetric tracked id := by
  cases effect with
  | install owner content =>
    refine ⟨⟨fun c listed d listedD _ => ?_, fun f listed => ?_⟩, ?_⟩
    · rw [Item.commit.inj (gives (.commit c) listed), Item.commit.inj (gives (.commit d) listedD)]
    · exact nomatch gives (.fragment f) listed
    · exact (Content.only_tree gives).orderly root depthMetric
  | give item =>
    obtain ⟨rfl, only⟩ := gives
    intro owner _
    have calls : ∀ call ∈ [Call.addCommit commit], (∀ g ∈ call.fragments, g = branchFragment) ∧
        ∀ d ∈ call.commits, d = commit := by
      simp [Call.fragments, Call.commits]
    exact (cleanRun_only root depthMetric [.addCommit commit] calls (Content.only_tree only)).1
  | _ => exact trivial

/-- A read loads a document, an item is inserted, the tree is evicted, and the read goes on. -/
def staleTurns (verified : VerifiedItem) : List NodeTurn :=
  .start (⟨1⟩, .getOrHydrate) :: List.replicate 3 (.advance 0) ++
    .start (⟨1⟩, .insertLocally verified) :: List.replicate 6 (.advance 1) ++
    [.outside ⟨1⟩, .advance 0]

/-- An item is inserted, the tree is evicted and read, and the item is inserted again. -/
def freshTurns (verified : VerifiedItem) : List NodeTurn :=
  .start (⟨1⟩, .insertLocally verified) :: List.replicate 9 (.advance 0) ++
    .outside ⟨1⟩ :: .start (⟨1⟩, .getOrHydrate) :: List.replicate 4 (.advance 1) ++
    .start (⟨1⟩, .insertLocally verified) :: List.replicate 3 (.advance 2)

end Durable

/-! ### An old snapshot -/

def twoBytes : Blob := ⟨[1, 2]⟩

/-- A second commit of document `1`. -/
def laterCommit [Blake3] : LooseCommit := ⟨⟨1⟩, ⟨6⟩, ∅, BlobMeta.new twoBytes⟩

attribute [local instance] IterOrder.ascending eightBytes lastBytes

def verifiedLater : VerifiedMeta LooseCommit :=
  ⟨⟨.sealPayload (signerOf 1) laterCommit, laterCommit, by decide +kernel⟩, twoBytes, rfl⟩

def staleCrew : NodeCrew :=
  (NodeCrew.start storageOfOne).run (fun _ => 0) (staleTurns (.commit verifiedLater))

/-- **A tree is resident that was not given a stored commit**, though no task is under way; the commit
is in the minimal form of the stored tree and not in that of the resident one. -/
theorem stale_snapshot_resident :
    staleCrew.Quiet ∧ staleCrew.shared.node.storage.Has ⟨1⟩ (.commit laterCommit) ∧
      ¬ (staleCrew.shared.given ⟨1⟩).Has (.commit laterCommit) ∧
      ((staleCrew.shared.node.storage.storedTree ⟨1⟩).minimize fun _ => 0).commit? ⟨6⟩ =
        some laterCommit ∧
      (staleCrew.shared.node.sedimentrees ⟨1⟩).map
        (fun owner => (owner.tree.minimize fun _ => 0).commit? ⟨6⟩) = some none := by
  decide +kernel

def freshCrew : NodeCrew :=
  (NodeCrew.start .new).run (fun _ => 0) (freshTurns (.commit verifiedOfOne))

theorem freshTurns_run : Along (NodeCrew.step fun _ => 0) (NodeCrew.Fresh fun _ => 0) (.start .new)
        (freshTurns (.commit verifiedOfOne)) ∧
      Along (NodeCrew.step fun _ => 0) (NodeCrew.Tidy fun _ => 0) (.start .new)
        (freshTurns (.commit verifiedOfOne)) ∧
      Along (NodeCrew.step fun _ => 0) (fun crew turn => ∀ about ∈ crew.effect? (fun _ => 0) turn,
          about.2.Gives commitOfOne crew.shared about.1) (.start .new)
        (freshTurns (.commit verifiedOfOne)) ∧
      freshCrew.Quiet ∧ (freshCrew.shared.node.sedimentrees ⟨1⟩).isSome = true := by
  decide +kernel

theorem resident_complete_fresh :
    Along (NodeCrew.step fun _ => 0) (NodeCrew.Fresh fun _ => 0) (.start .new)
        (freshTurns (.commit verifiedOfOne)) ∧
      ∃ owner, freshCrew.shared.node.sedimentrees ⟨1⟩ = some owner ∧
        (∀ item, freshCrew.shared.node.storage.Has ⟨1⟩ item → (freshCrew.shared.given ⟨1⟩).Has item) ∧
        owner.tree.minimize (fun _ => 0) =
          (freshCrew.shared.node.storage.storedTree ⟨1⟩).minimize fun _ => 0 := by
  obtain ⟨fresh, tidy, gives, quiet, resident⟩ := freshTurns_run
  obtain ⟨owner, isResident⟩ := Option.isSome_iff_exists.mp resident
  have clean := @Along.imp _ _ _ _ _ _ gives (fun _ => True)
    (@NodeCrew.Clean lastBytes eightBytes (IterOrder.ascending CommitId) (IterOrder.ascending _)
      (IterOrder.ascending _) fun _ => 0) (fun _ _ _ _ => trivial)
    (fun _ _ _ gives about isAbout => @Effect.Gives.clean lastBytes eightBytes
      (IterOrder.ascending CommitId) (IterOrder.ascending _) (IterOrder.ascending _) _ _ rfl _ _ _
      (gives about isAbout)) trivial
  have both := @resident_complete lastBytes eightBytes (IterOrder.ascending CommitId)
    (IterOrder.ascending _) (IterOrder.ascending _) (fun _ => 0) _ _ fresh ⟨1⟩ owner isResident
    fun item => @NodeCrew.Quiet.not_inFlight lastBytes eightBytes (IterOrder.ascending CommitId)
      (IterOrder.ascending _) (IterOrder.ascending _) _ _ quiet item
  exact ⟨fresh, owner, isResident, both.1, both.2 tidy clean⟩

end Subduction
