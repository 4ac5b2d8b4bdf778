/-
**When the minimal form does not depend on when a tree was minimized.**

`MinimizedSedimentree` minimizes in place. What is dropped is missing when later items arrive, so two
peers that received the same items and minimized at different times can end with different minimal
trees (`branch_from_dropped`).

Main result: `schedule_independent`.
-/

import Subduction.Convergence.Exposure
import Subduction.Core.Minimized

set_option linter.unusedSectionVars false

namespace Subduction

open Relation Sedimentree

/-! ### Orderly content -/

/-- **Content on which dropping is safe.** -/
structure Orderly [IterOrder CommitId] (metric : DepthMetric) (tree : Sedimentree) : Prop where
  acyclic : ∀ a, ¬ TransGen tree.Link a a
  transitive : ∀ f g h, metric f < metric g → metric g < metric h → tree.Supports metric g f →
    tree.Supports metric h g → tree.Supports metric h f
  handsOver : ∀ f g shallow deep, tree.fragment? f = some shallow → tree.fragment? g = some deep →
    metric f < metric g → deep.supports shallow.summary metric = true →
    ∀ id, shallow.covers id = true → deep.covers id = true

/-- **`tree` has fragments of `full`**, and all those that no strictly deeper one supports. -/
structure Topped [IterOrder CommitId] (metric : DepthMetric) (tree full : Sedimentree) : Prop where
  sub : ∀ f fragment, tree.fragment? f = some fragment → full.fragment? f = some fragment
  top : ∀ f fragment, full.fragment? f = some fragment →
    (∀ g, metric f < metric g → ¬ full.Supports metric g f) → tree.fragment? f = some fragment

section Fragments

variable [IterOrder CommitId] {metric : DepthMetric} {tree full : Sedimentree}

theorem Orderly.mem_minimize (orderly : Orderly metric full) {f : CommitId} :
    f ∈ (full.minimizeInPlace metric).fragmentKeys ↔
      f ∈ full.fragmentKeys ∧ ∀ g, metric f < metric g → ¬ full.Supports metric g f := by
  have bounded : ∀ a, a ∈ full.fragmentKeys → metric a ≤ full.fragmentKeys.sup metric :=
    fun a member => Finset.le_sup (f := metric) member
  have maximal := Kernel.mem_iff_maximal bounded (full.minimize_kernel metric)
    (fun a b c _ _ _ above aboveB => orderly.transitive a b c above aboveB) f
  refine maximal.trans (and_congr_right fun _ =>
    ⟨fun clear g above supports => ?_, fun clear g _ => clear g⟩)
  obtain ⟨deeper, -, stored, -⟩ := id supports
  exact clear g (mem_fragmentKeys.mpr ⟨deeper, stored⟩) above supports

theorem Orderly.covers_minimize (orderly : Orderly metric full) {id : CommitId} :
    (full.minimizeInPlace metric).Covers id ↔ full.Covers id := by
  refine ⟨fun ⟨f, fragment, stored, covers⟩ => ?_, fun ⟨f, fragment, stored, covers⟩ => ?_⟩
  · exact ⟨f, fragment, (Sedimentree.fragment?_minimizeInPlace.mp stored).1, covers⟩
  · have member := mem_fragmentKeys.mpr ⟨fragment, stored⟩
    by_cases stays : f ∈ (full.minimizeInPlace metric).fragmentKeys
    · exact ⟨f, fragment, (mem_fragmentKeys_minimizeInPlace stored).mp stays, covers⟩
    · obtain ⟨g, staysG, above, deep, shallow, storedG, storedF, supports⟩ :=
        (full.minimize_kernel metric).dominated member stays
      obtain rfl := Option.some.inj (stored.symm.trans storedF)
      exact ⟨g, deep, (mem_fragmentKeys_minimizeInPlace storedG).mp staysG,
        orderly.handsOver f g fragment deep stored storedG above supports id covers⟩

theorem Topped.supports (topped : Topped metric tree full) {f g : CommitId}
    (supports : tree.Supports metric g f) : full.Supports metric g f := by
  obtain ⟨deep, shallow, storedG, storedF, supports⟩ := supports
  exact ⟨deep, shallow, topped.sub g deep storedG, topped.sub f shallow storedF, supports⟩

theorem Topped.supports_back (topped : Topped metric tree full) {f g : CommitId}
    (supports : full.Supports metric g f) (source : g ∈ tree.fragmentKeys)
    (target : f ∈ tree.fragmentKeys) : tree.Supports metric g f := by
  obtain ⟨deep, shallow, storedG, storedF, supports⟩ := supports
  obtain ⟨deep', storedG'⟩ := mem_fragmentKeys.mp source
  obtain ⟨shallow', storedF'⟩ := mem_fragmentKeys.mp target
  obtain rfl := Option.some.inj (storedG.symm.trans (topped.sub g deep' storedG'))
  obtain rfl := Option.some.inj (storedF.symm.trans (topped.sub f shallow' storedF'))
  exact ⟨deep, shallow, storedG', storedF', supports⟩

theorem mem_fragmentKeys_of_supports {f g : CommitId} (supports : tree.Supports metric g f) :
    g ∈ tree.fragmentKeys ∧ f ∈ tree.fragmentKeys := by
  obtain ⟨deep, shallow, storedG, storedF, -⟩ := supports
  exact ⟨mem_fragmentKeys.mpr ⟨deep, storedG⟩, mem_fragmentKeys.mpr ⟨shallow, storedF⟩⟩

theorem Orderly.part (orderly : Orderly metric full) (topped : Topped metric tree full)
    (acyclic : ∀ a, ¬ TransGen tree.Link a a) : Orderly metric tree := by
  refine ⟨acyclic, fun f g h above aboveG supports supportsG => ?_,
    fun f g shallow deep storedF storedG above supports => ?_⟩
  · exact topped.supports_back (orderly.transitive f g h above aboveG (topped.supports supports)
      (topped.supports supportsG)) (mem_fragmentKeys_of_supports supportsG).1
      (mem_fragmentKeys_of_supports supports).2
  · exact orderly.handsOver f g shallow deep (topped.sub f shallow storedF)
      (topped.sub g deep storedG) above supports

theorem Topped.minimize_eq (topped : Topped metric tree full) (orderly : Orderly metric full)
    (part : Orderly metric tree) {f : CommitId} {fragment : Fragment} :
    (tree.minimizeInPlace metric).fragment? f = some fragment ↔
      (full.minimizeInPlace metric).fragment? f = some fragment := by
  have keys : f ∈ (tree.minimizeInPlace metric).fragmentKeys ↔
      f ∈ (full.minimizeInPlace metric).fragmentKeys := by
    rw [part.mem_minimize, orderly.mem_minimize]
    refine ⟨fun ⟨member, clear⟩ => ?_, fun ⟨member, clear⟩ => ?_⟩
    · obtain ⟨shallow, stored⟩ := mem_fragmentKeys.mp member
      have inFull := mem_fragmentKeys.mpr ⟨shallow, topped.sub f shallow stored⟩
      rw [← orderly.mem_minimize]
      by_contra dropped
      obtain ⟨g, stays, above, supports⟩ := (full.minimize_kernel metric).dominated inFull dropped
      obtain ⟨inFullG, clearG⟩ := orderly.mem_minimize.mp stays
      obtain ⟨deep, storedG⟩ := mem_fragmentKeys.mp inFullG
      have inTree := mem_fragmentKeys.mpr ⟨deep, topped.top g deep storedG clearG⟩
      exact clear g above (topped.supports_back supports inTree member)
    · obtain ⟨shallow, stored⟩ := mem_fragmentKeys.mp member
      exact ⟨mem_fragmentKeys.mpr ⟨shallow, topped.top f shallow stored clear⟩,
        fun g above supports => clear g above (topped.supports supports)⟩
  refine ⟨fun found => ?_, fun found => ?_⟩
  · have stored := (Sedimentree.fragment?_minimizeInPlace.mp found).1
    have member := (mem_fragmentKeys_minimizeInPlace stored).mpr found
    exact (mem_fragmentKeys_minimizeInPlace (topped.sub f fragment stored)).mp (keys.mp member)
  · have stored := (Sedimentree.fragment?_minimizeInPlace.mp found).1
    have member := (mem_fragmentKeys_minimizeInPlace stored).mpr found
    have clear := (orderly.mem_minimize.mp member).2
    exact (mem_fragmentKeys_minimizeInPlace (topped.top f fragment stored clear)).mp
      (keys.mpr member)

end Fragments

/-! ### What the owner still has -/

section Faithful

variable [IterOrder CommitId] {metric : DepthMetric} {tree full : Sedimentree}

/-- **The tree has enough of the full one**: the undominated fragments, the exposed commits, and the
parents of depth zero of every commit that can still be exposed. -/
structure Faithful (metric : DepthMetric) (tree full : Sedimentree) : Prop where
  orderly : Orderly metric full
  fragments : Topped metric tree full
  commits : Sedimentree.Thinned metric full.Covers tree full
  parents : ∀ b a, b ∈ tree.commitKeys → (0 < metric b → ¬ full.Covers b) → ¬ 0 < metric a →
    full.Link b a → a ∈ tree.commitKeys

theorem Faithful.minimize_eq (faithful : Faithful metric tree full) :
    tree.minimizeInPlace metric = full.minimizeInPlace metric := by
  have part := faithful.orderly.part faithful.fragments
    (faithful.commits.acyclic faithful.orderly.acyclic)
  have sameFragments : ∀ f, (tree.minimizeInPlace metric).fragment? f =
      (full.minimizeInPlace metric).fragment? f :=
    fun f => Option.ext fun fragment => faithful.fragments.minimize_eq faithful.orderly part
  have fullCovers : (full.minimizeInPlace metric).Covers = full.Covers :=
    funext fun id => propext faithful.orderly.covers_minimize
  have treeCovers : (tree.minimizeInPlace metric).Covers = full.Covers := by
    rw [← fullCovers]
    funext id
    unfold Sedimentree.Covers
    simp only [sameFragments]
  refine Sedimentree.ext sameFragments fun a => Option.ext fun commit => ?_
  show (tree.minimizeInPlace metric).commit? a = some commit ↔
    (full.minimizeInPlace metric).commit? a = some commit
  rw [Sedimentree.commit?_minimize_iff_exposed, Sedimentree.commit?_minimize_iff_exposed, treeCovers,
    fullCovers, faithful.commits.exposed_iff faithful.orderly.acyclic]
  refine and_congr_left fun exposed => ⟨faithful.commits.sub a commit, fun stored => ?_⟩
  obtain ⟨other, found⟩ := mem_commitKeys.mp (faithful.commits.dropped a exposed)
  rw [Option.some.inj (stored.symm.trans (faithful.commits.sub a other found))]
  exact found

theorem Orderly.faithful_minimize (orderly : Orderly metric full) :
    Faithful metric (full.minimizeInPlace metric) full := by
  have stays : ∀ a, a ∈ (full.minimizeInPlace metric).commitKeys ↔
      full.Exposed metric full.Covers a := by
    intro a
    rw [mem_minimize_iff_exposed, show (full.minimizeInPlace metric).Covers = full.Covers from
        funext fun id => propext orderly.covers_minimize]
  have sub : ∀ a commit, (full.minimizeInPlace metric).commit? a = some commit →
      full.commit? a = some commit :=
    fun a commit found => (Sedimentree.commit?_minimizeInPlace.mp found).1
  refine ⟨orderly, ⟨fun f fragment found => (Sedimentree.fragment?_minimizeInPlace.mp found).1,
    fun f fragment stored clear => ?_⟩, ⟨sub, fun a => (stays a).mpr,
    fun a b member flat link => ?_⟩, fun b a member _ flat link => ?_⟩
  · refine (mem_fragmentKeys_minimizeInPlace stored).mp (orderly.mem_minimize.mpr ?_)
    exact ⟨mem_fragmentKeys.mpr ⟨fragment, stored⟩, clear⟩
  · rcases (exposed_flat flat).mp ((stays a).mp member) with isTip | ⟨c, linkC, exposed⟩
    · exact absurd link (isTip.2 b)
    · obtain ⟨commit, stored, isParent, -⟩ := linkC
      obtain ⟨other, found⟩ := mem_commitKeys.mp ((stays c).mpr exposed)
      rw [Option.some.inj (stored.symm.trans (sub c other found))] at isParent
      exact ⟨c, other, found, isParent, member⟩
  · exact (stays a).mpr ((exposed_flat flat).mpr (Or.inr ⟨b, link, (stays b).mp member⟩))

theorem Orderly.faithful_self (orderly : Orderly metric full) : Faithful metric full full := by
  refine ⟨orderly, ⟨fun _ _ stored => stored, fun _ _ stored _ => stored⟩,
    ⟨fun _ _ stored => stored, fun _ exposed => exposed.mem_commitKeys, fun a b _ _ link => ⟨b, link⟩⟩,
    fun b a _ _ _ link => ?_⟩
  obtain ⟨-, -, -, member⟩ := link
  exact member

end Faithful

/-! ### Growing both trees -/

/-- **`grown` is `tree` with the given items added**, none of them a second value for a head. -/
structure Grown (fragments : List Fragment) (commits : List LooseCommit) (tree grown : Sedimentree) :
    Prop where
  fragment : ∀ f fragment, grown.fragment? f = some fragment ↔
    tree.fragment? f = some fragment ∨ fragment ∈ fragments ∧ fragment.head = f
  commit : ∀ c commit, grown.commit? c = some commit ↔
    tree.commit? c = some commit ∨ commit ∈ commits ∧ commit.head = c

section Growth

variable [IterOrder CommitId] {metric : DepthMetric} {tree full tree' full' : Sedimentree}
  {fragments : List Fragment} {commits : List LooseCommit}

section

variable (grown : Grown fragments commits tree tree')

include grown

theorem Grown.mem_commitKeys {a : CommitId} :
    a ∈ tree'.commitKeys ↔ a ∈ tree.commitKeys ∨ ∃ x ∈ commits, x.head = a := by
  rw [Sedimentree.mem_commitKeys, Sedimentree.mem_commitKeys]
  simp only [grown.commit, exists_or]

theorem Grown.link {a b : CommitId} (link : tree.Link a b) : tree'.Link a b := by
  obtain ⟨commit, stored, isParent, present⟩ := link
  exact ⟨commit, (grown.commit a commit).mpr (Or.inl stored), isParent,
    grown.mem_commitKeys.mpr (Or.inl present)⟩

theorem Grown.link_back {a b : CommitId}
    (link : tree'.Link a b) (source : a ∈ tree.commitKeys) (target : b ∈ tree.commitKeys) :
    tree.Link a b := by
  obtain ⟨commit, stored, isParent, -⟩ := link
  obtain ⟨other, storedOther⟩ := Sedimentree.mem_commitKeys.mp source
  have storedOther' := (grown.commit a other).mpr (Or.inl storedOther)
  rw [Option.some.inj (stored.symm.trans storedOther')] at isParent
  exact ⟨other, storedOther, isParent, target⟩

theorem Grown.covers {id : CommitId} (covers : tree.Covers id) : tree'.Covers id := by
  obtain ⟨f, fragment, stored, covers⟩ := covers
  exact ⟨f, fragment, (grown.fragment f fragment).mpr (Or.inl stored), covers⟩

theorem Grown.supports {f g : CommitId}
    (supports : tree.Supports metric g f) : tree'.Supports metric g f := by
  obtain ⟨deep, shallow, storedG, storedF, supports⟩ := supports
  exact ⟨deep, shallow, (grown.fragment g deep).mpr (Or.inl storedG),
    (grown.fragment f shallow).mpr (Or.inl storedF), supports⟩

theorem Grown.mem_of_new (grownFull : Grown fragments commits full full') {a : CommitId} (member : a ∈ full'.commitKeys)
    (fresh : a ∉ full.commitKeys) : a ∈ tree'.commitKeys :=
  grown.mem_commitKeys.mpr (Or.inr ((grownFull.mem_commitKeys.mp member).resolve_left fresh))

end

variable (faithful : Faithful metric tree full) (grown : Grown fragments commits tree tree')

include faithful grown

variable (grownFull : Grown fragments commits full full')

include grownFull

theorem Faithful.grow_parents (parents : ∀ x ∈ commits, x.head ∉ tree.commitKeys →
      (0 < metric x.head → ¬ full'.Covers x.head) → ∀ p, ¬ 0 < metric p → full'.Link x.head p →
        p ∈ tree'.commitKeys)
    (b a : CommitId) (member : b ∈ tree'.commitKeys) (uncovered : 0 < metric b → ¬ full'.Covers b)
    (flat : ¬ 0 < metric a) (link : full'.Link b a) : a ∈ tree'.commitKeys := by
  by_cases isOld : b ∈ tree.commitKeys
  · by_cases present : a ∈ full.commitKeys
    · have linkFull := grownFull.link_back link (faithful.commits.keys isOld) present
      have uncoveredFull : 0 < metric b → ¬ full.Covers b :=
        fun positive covers => uncovered positive (grownFull.covers covers)
      exact grown.mem_commitKeys.mpr
        (Or.inl (faithful.parents b a isOld uncoveredFull flat linkFull))
    · exact grown.mem_of_new grownFull link.choose_spec.2.2 present
  · obtain ⟨x, listed, rfl⟩ := (grown.mem_commitKeys.mp member).resolve_left isOld
    exact parents x listed isOld uncovered a flat link

theorem Faithful.grow_child (children : ∀ x ∈ commits, x.head ∉ tree.commitKeys → ¬ 0 < metric x.head →
      ∀ b, full'.Link b x.head → ∃ c, tree'.Link c x.head)
    (a b : CommitId) (member : a ∈ tree'.commitKeys) (flat : ¬ 0 < metric a)
    (link : full'.Link b a) : ∃ c, tree'.Link c a := by
  by_cases isOld : a ∈ tree.commitKeys
  · by_cases present : b ∈ full.commitKeys
    · have linkFull := grownFull.link_back link present (faithful.commits.keys isOld)
      obtain ⟨c, linkC⟩ := faithful.commits.child a b isOld flat linkFull
      exact ⟨c, grown.link linkC⟩
    · obtain ⟨commit, stored, isParent, -⟩ := link
      refine ⟨b, commit, (grown.commit b commit).mpr (Or.inr ?_), isParent, member⟩
      refine ((grownFull.commit b commit).mp stored).resolve_left fun storedFull => present ?_
      exact mem_commitKeys.mpr ⟨commit, storedFull⟩
  · obtain ⟨x, listed, rfl⟩ := (grown.mem_commitKeys.mp member).resolve_left isOld
    exact children x listed isOld flat b link

/-- **Growing keeps the tree faithful**, when the new commits do not meet what was dropped. -/
theorem Faithful.grow (orderly : Orderly metric full') (parents : ∀ x ∈ commits, x.head ∉ tree.commitKeys →
      (0 < metric x.head → ¬ full'.Covers x.head) → ∀ p, ¬ 0 < metric p → full'.Link x.head p →
        p ∈ tree'.commitKeys)
    (children : ∀ x ∈ commits, x.head ∉ tree.commitKeys → ¬ 0 < metric x.head →
      ∀ b, full'.Link b x.head → ∃ c, tree'.Link c x.head) : Faithful metric tree' full' := by
  have acyclic : ∀ a, ¬ TransGen full.Link a a := fun a cycle =>
    orderly.acyclic a (TransGen.mono (fun _ _ link => grownFull.link link) _ _ cycle)
  have old : ∀ a, full.Exposed metric full.Covers a → a ∈ tree'.commitKeys := fun a exposed =>
    grown.mem_commitKeys.mpr (Or.inl (faithful.commits.dropped a exposed))
  have parents' := faithful.grow_parents grown grownFull parents
  refine ⟨orderly, ⟨fun f fragment stored => ?_, fun f fragment stored clear => ?_⟩,
    ⟨fun a commit stored => ?_, fun a exposed => exposed.rec_on (fun a member positive uncovered => ?_)
      (fun a isTip flat => ?_) (fun a child link flat exposedChild ih => ?_),
      faithful.grow_child grown grownFull children⟩, parents'⟩
  · exact (grownFull.fragment f fragment).mpr
      (((grown.fragment f fragment).mp stored).imp_left (faithful.fragments.sub f fragment))
  · refine (grown.fragment f fragment).mpr (((grownFull.fragment f fragment).mp stored).imp_left ?_)
    exact fun storedFull => faithful.fragments.top f fragment storedFull
      fun g above supports => clear g above (grownFull.supports supports)
  · exact (grownFull.commit a commit).mpr
      (((grown.commit a commit).mp stored).imp_left (faithful.commits.sub a commit))
  · by_cases present : a ∈ full.commitKeys
    · refine old a ((exposed_positive acyclic positive).mpr ⟨present, fun covers => ?_⟩)
      exact uncovered (grownFull.covers covers)
    · exact grown.mem_of_new grownFull member present
  · by_cases present : a ∈ full.commitKeys
    · refine old a ((exposed_flat flat).mpr (Or.inl ⟨present, fun child link => ?_⟩))
      exact isTip.2 child (grownFull.link link)
    · exact grown.mem_of_new grownFull isTip.1 present
  · refine parents' child a ih (fun positive => ?_) flat link
    exact ((exposed_positive orderly.acyclic positive).mp exposedChild).2

end Growth

/-! ### Calls and runs -/

/-- **A call on the owner of a tree.** -/
inductive Call where
  | addCommit (commit : LooseCommit)
  | addFragment (fragment : Fragment)
  | merge (other : Sedimentree)
  | ensureMinimized
  | minimized
  | heads

namespace Call

variable [IterOrder CommitId]

def fragments : Call → List Fragment
  | addFragment fragment => [fragment]
  | merge other => other.fragments.map.values
  | _ => []

def commits : Call → List LooseCommit
  | addCommit commit => [commit]
  | merge other => other.commits.map.values
  | _ => []

variable [Blake3] [Bijou64]

/-- The call on a plain tree: the mutations only. -/
def onPlain : Call → Sedimentree → Sedimentree
  | addCommit commit, tree => (tree.addCommit commit).1
  | addFragment fragment, tree => (tree.addFragment fragment).1
  | merge other, tree => tree.merge other
  | ensureMinimized, tree => tree
  | minimized, tree => tree
  | heads, tree => tree

def onOwner (depthMetric : DepthMetric) : Call → MinimizedSedimentree → MinimizedSedimentree
  | addCommit commit, owner => (owner.addCommit commit).1
  | addFragment fragment, owner => (owner.addFragment fragment).1
  | merge other, owner => owner.merge other
  | ensureMinimized, owner => owner.ensureMinimized depthMetric
  | minimized, owner => (owner.minimized depthMetric).1
  | heads, owner => (owner.heads depthMetric).1

theorem onPlain_eq (call : Call) (tree : Sedimentree) :
    call.onPlain tree = ⟨call.fragments.foldl Shelf.insert tree.fragments,
      call.commits.foldl Shelf.insert tree.commits⟩ := by
  cases call with
  | addCommit commit =>
    exact congrArg (Sedimentree.mk tree.fragments) (Shelf.add_fst tree.commits commit)
  | addFragment fragment =>
    exact congrArg (fun shelf => Sedimentree.mk shelf tree.commits)
      (Shelf.add_fst tree.fragments fragment)
  | merge other => rfl
  | ensureMinimized => rfl
  | minimized => rfl
  | heads => rfl

theorem onOwner_cases (depthMetric : DepthMetric) (call : Call) (owner : MinimizedSedimentree) :
    call.onOwner depthMetric owner = ⟨call.onPlain owner.tree, true⟩ ∨
      (∀ tree, call.onPlain tree = tree) ∧
        call.onOwner depthMetric owner = owner.ensureMinimized depthMetric := by
  cases call with
  | addCommit commit => exact Or.inl rfl
  | addFragment fragment => exact Or.inl rfl
  | merge other => exact Or.inl rfl
  | ensureMinimized => exact Or.inr ⟨fun _ => rfl, rfl⟩
  | minimized => exact Or.inr ⟨fun _ => rfl, rfl⟩
  | heads => exact Or.inr ⟨fun _ => rfl, rfl⟩

end Call

section Run

variable [IterOrder CommitId] [Blake3] [Bijou64]

/-- **The owner of a tree, and the plain tree that sees the mutations only.** -/
structure Twin where
  owner : MinimizedSedimentree
  plain : Sedimentree

def Twin.start : Twin := ⟨∅, ∅⟩

def Twin.step (metric : DepthMetric) (twin : Twin) (call : Call) : Twin :=
  ⟨call.onOwner metric twin.owner, call.onPlain twin.plain⟩

def Twin.run (metric : DepthMetric) (twin : Twin) (calls : List Call) : Twin :=
  calls.foldl (Twin.step metric) twin

/-- **The call does not meet what the owner dropped.** No head gets a second value and the content
stays orderly. A commit that the owner does not have comes with its parents of depth zero, unless a
fragment covers it; and if it has depth zero itself and a child somewhere, the owner has such a child. -/
structure CleanCall (metric : DepthMetric) (twin : Twin) (call : Call) : Prop where
  fragmentValues : ∀ f ∈ call.fragments, ∀ g, twin.plain.fragment? f.head = some g ∨
    g ∈ call.fragments ∧ g.head = f.head → g = f
  commitValues : ∀ c ∈ call.commits, ∀ d, twin.plain.commit? c.head = some d ∨
    d ∈ call.commits ∧ d.head = c.head → d = c
  orderly : Orderly metric (call.onPlain twin.plain)
  parents : ∀ x ∈ call.commits, x.head ∉ twin.owner.tree.commitKeys →
    (0 < metric x.head → ¬ (call.onPlain twin.plain).Covers x.head) → ∀ p, ¬ 0 < metric p →
      (call.onPlain twin.plain).Link x.head p → p ∈ (call.onPlain twin.owner.tree).commitKeys
  children : ∀ x ∈ call.commits, x.head ∉ twin.owner.tree.commitKeys → ¬ 0 < metric x.head →
    ∀ b, (call.onPlain twin.plain).Link b x.head → ∃ c, (call.onPlain twin.owner.tree).Link c x.head

/-- Every call of the sequence is clean where it is made. -/
def CleanRun (metric : DepthMetric) : Twin → List Call → Prop
  | _, [] => True
  | twin, call :: calls => CleanCall metric twin call ∧ CleanRun metric (twin.step metric call) calls

/-- **The invariant of a clean run.** -/
structure Twin.Synced (metric : DepthMetric) (twin : Twin) : Prop where
  faithful : Faithful metric twin.owner.tree twin.plain
  clean : twin.owner.dirty = false → twin.owner.tree.minimizeInPlace metric = twin.owner.tree

variable {metric : DepthMetric}

theorem CleanCall.grown {twin : Twin} {call : Call} (clean : CleanCall metric twin call)
    {tree : Sedimentree}
    (fragments : ∀ f fragment, tree.fragment? f = some fragment → twin.plain.fragment? f = some fragment)
    (commits : ∀ c commit, tree.commit? c = some commit → twin.plain.commit? c = some commit) :
    Grown call.fragments call.commits tree (call.onPlain tree) := by
  rw [Call.onPlain_eq]
  refine ⟨fun f fragment => Shelf.get?_foldl_insert_iff fun v listed w either => ?_,
    fun c commit => Shelf.get?_foldl_insert_iff fun v listed w either => ?_⟩
  · exact clean.fragmentValues v listed w (either.imp_left (fragments v.head w))
  · exact clean.commitValues v listed w (either.imp_left (commits v.head w))

theorem Twin.Synced.ensureMinimized {twin : Twin} (synced : twin.Synced metric) :
    Twin.Synced metric ⟨twin.owner.ensureMinimized metric, twin.plain⟩ ∧
      (twin.owner.ensureMinimized metric).tree = twin.plain.minimizeInPlace metric := by
  have same := synced.faithful.minimize_eq
  cases flag : twin.owner.dirty with
  | true =>
    have minimal := synced.faithful.orderly.faithful_minimize
    have ensured : twin.owner.ensureMinimized metric =
        ⟨twin.plain.minimizeInPlace metric, false⟩ := by
      unfold MinimizedSedimentree.ensureMinimized
      rw [if_pos flag, same]
    rw [ensured]
    exact ⟨⟨minimal, fun _ => minimal.minimize_eq⟩, rfl⟩
  | false =>
    have ensured : twin.owner.ensureMinimized metric = twin.owner := by
      unfold MinimizedSedimentree.ensureMinimized
      rw [flag]
      rfl
    rw [ensured]
    exact ⟨synced, (synced.clean flag).symm.trans same⟩

theorem Twin.Synced.step {twin : Twin} (synced : twin.Synced metric) {call : Call}
    (clean : CleanCall metric twin call) : (twin.step metric call).Synced metric := by
  unfold Twin.step
  rcases call.onOwner_cases metric twin.owner with mutation | ⟨unchanged, read⟩
  · rw [mutation]
    refine ⟨?_, fun impossible => absurd impossible (by simp)⟩
    have grown := clean.grown synced.faithful.fragments.sub synced.faithful.commits.sub
    have grownFull := clean.grown (fun _ _ stored => stored) (fun _ _ stored => stored)
    exact synced.faithful.grow grown grownFull clean.orderly clean.parents clean.children
  · rw [read, unchanged]
    exact synced.ensureMinimized.1

theorem Twin.Synced.run (calls : List Call) {twin : Twin} (synced : twin.Synced metric)
    (clean : CleanRun metric twin calls) : (twin.run metric calls).Synced metric := by
  induction calls generalizing twin with
  | nil => exact synced
  | cons call calls ih => exact ih (synced.step clean.1) clean.2

theorem Twin.synced_start (metric : DepthMetric) : Twin.start.Synced metric := by
  have orderly : Orderly metric (∅ : Sedimentree) := by
    refine ⟨fun a cycle => ?_, fun f g h _ _ supports => ?_, fun f g shallow deep stored => ?_⟩
    · obtain ⟨b, link, -⟩ := TransGen.head'_iff.mp cycle
      obtain ⟨commit, stored, -⟩ := link
      exact absurd stored (by simp)
    · obtain ⟨deep, shallow, stored, -⟩ := supports
      exact absurd stored (by simp)
    · exact absurd stored (by simp)
  refine ⟨?_, fun _ => minimizeInPlace_empty metric⟩
  have faithful := orderly.faithful_minimize
  rw [minimizeInPlace_empty] at faithful
  exact faithful

/-- **The minimal form does not depend on the schedule**, in every run of clean calls. -/
theorem schedule_independent (metric : DepthMetric) (calls : List Call)
    (clean : CleanRun metric Twin.start calls) :
    ((Twin.start.run metric calls).owner.minimized metric).2 =
      (Twin.start.run metric calls).plain.minimize metric := by
  rw [Sedimentree.minimize_eq_minimizeInPlace]
  exact ((Twin.synced_start metric).run calls clean).ensureMinimized.2

end Run

/-! ### A branch from a dropped commit -/

def branchMetric : DepthMetric := fun id => if id = .numbered 2 then 1 else 0

def branchCommit (number : Nat) (parents : Finset CommitId) : LooseCommit :=
  ⟨⟨0⟩, .numbered number, parents, ⟨⟨0⟩, 0⟩⟩

/-- The fragment of the commits `2` and `1`. -/
def branchFragment : Fragment := Fragment.new ⟨0⟩ (.numbered 2) ∅ ∅ ⟨⟨0⟩, 0⟩

/-- A root and its child, the fragment with both, a read, and a second child of the root. -/
def branchCalls : List Call :=
  [.addCommit (branchCommit 1 ∅), .addCommit (branchCommit 2 {.numbered 1}),
    .addFragment branchFragment, .heads, .addCommit (branchCommit 3 {.numbered 1})]

/-- **A commit that was dropped is kept by who did not minimize in between.** -/
theorem branch_from_dropped : letI : IterOrder CommitId := IterOrder.ascending CommitId
    letI : Blake3 := ⟨fun _ => 0⟩
    letI : Bijou64 := ⟨fun _ => []⟩
    .numbered 1 ∉ ((Twin.start.run branchMetric branchCalls).owner.minimized branchMetric).2.commitKeys ∧
      .numbered 1 ∈
        ((Twin.start.run branchMetric branchCalls).plain.minimize branchMetric).commitKeys := by
  decide +kernel

/-! ### A covered commit that arrives again -/

section Single

variable [IterOrder CommitId] [Blake3] [Bijou64]

/-- The tree has no fragment and no commit but the two given ones. -/
def Only (fragment : Fragment) (commit : LooseCommit) (tree : Sedimentree) : Prop :=
  (∀ f g, tree.fragment? f = some g → g = fragment) ∧ ∀ c d, tree.commit? c = some d → d = commit

section

variable {fragment : Fragment} {commit : LooseCommit} {tree : Sedimentree} (only : Only fragment commit tree)

include only

theorem Only.onPlain {call : Call}
    (brings : (∀ g ∈ call.fragments, g = fragment) ∧ ∀ d ∈ call.commits, d = commit) :
    Only fragment commit (call.onPlain tree) := by
  rw [Call.onPlain_eq]
  refine ⟨fun f g stored => ?_, fun c d stored => ?_⟩
  · exact (Shelf.get?_foldl_insert stored).elim (only.1 f g) (brings.1 g)
  · exact (Shelf.get?_foldl_insert stored).elim (only.2 c d) (brings.2 d)

theorem Only.no_link (root : commit.parents = ∅) (a b : CommitId) : ¬ tree.Link a b := by
  intro link
  obtain ⟨d, stored, isParent, -⟩ := link
  rw [only.2 a d stored, root] at isParent
  exact absurd isParent (Finset.notMem_empty b)

theorem Only.orderly (root : commit.parents = ∅) (metric : DepthMetric) : Orderly metric tree := by
  have same : ∀ f g first second, tree.fragment? f = some first → tree.fragment? g = some second →
      ¬ metric f < metric g := by
    intro f g first second storedF storedG above
    rw [← head_of_fragment? storedF, ← head_of_fragment? storedG,
      only.1 f first storedF, only.1 g second storedG] at above
    exact lt_irrefl _ above
  refine ⟨fun a cycle => ?_, fun f g h above _ supports => ?_,
    fun f g shallow deep storedF storedG above => ?_⟩
  · obtain ⟨b, link, -⟩ := TransGen.head'_iff.mp cycle
    exact only.no_link root a b link
  · obtain ⟨deep, shallow, storedG, storedF, -⟩ := supports
    exact absurd above (same f g shallow deep storedF storedG)
  · exact absurd above (same f g shallow deep storedF storedG)

end

theorem cleanRun_only {fragment : Fragment} {commit : LooseCommit} (root : commit.parents = ∅)
    (metric : DepthMetric) (calls : List Call)
    (brings : ∀ call ∈ calls, (∀ g ∈ call.fragments, g = fragment) ∧ ∀ d ∈ call.commits, d = commit)
    {twin : Twin} (only : Only fragment commit twin.plain) : CleanRun metric twin calls := by
  induction calls generalizing twin with
  | nil => exact trivial
  | cons call calls ih =>
    obtain ⟨fragments, commits⟩ := brings call List.mem_cons_self
    have next := only.onPlain (brings call List.mem_cons_self)
    refine ⟨⟨fun f listed g either => ?_, fun c listed d either => ?_, next.orderly root metric,
      fun x _ _ _ p _ link => absurd link (next.no_link root _ _),
      fun x _ _ _ b link => absurd link (next.no_link root _ _)⟩,
      ih (fun call later => brings call (List.mem_cons_of_mem _ later)) next⟩
    · rw [fragments f listed]
      exact either.elim (only.1 _ g) fun both => fragments g both.1
    · rw [commits c listed]
      exact either.elim (only.2 _ d) fun both => commits d both.1

end Single

theorem schedule_independent_again : letI : IterOrder CommitId := IterOrder.ascending CommitId
    letI : Blake3 := ⟨fun _ => 0⟩
    letI : Bijou64 := ⟨fun _ => []⟩
    let calls := [Call.addCommit (branchCommit 2 ∅), .addFragment branchFragment, .heads,
      .addCommit (branchCommit 2 ∅), .ensureMinimized]
    CleanRun branchMetric Twin.start calls ∧
      ((Twin.start.run branchMetric calls).owner.minimized branchMetric).2 =
        (Twin.start.run branchMetric calls).plain.minimize branchMetric := by
  let _ : IterOrder CommitId := IterOrder.ascending CommitId
  let _ : Blake3 := ⟨fun _ => 0⟩
  let _ : Bijou64 := ⟨fun _ => []⟩
  intro calls
  have brings : ∀ call ∈ calls, (∀ g ∈ call.fragments, g = branchFragment) ∧
      ∀ d ∈ call.commits, d = branchCommit 2 ∅ := by
    simp [calls, Call.fragments, Call.commits]
  have clean : CleanRun branchMetric Twin.start calls :=
    cleanRun_only rfl branchMetric calls brings ⟨fun f g stored => absurd stored (by simp [Twin.start]),
      fun c d stored => absurd stored (by simp [Twin.start])⟩
  exact ⟨clean, schedule_independent branchMetric calls clean⟩

end Subduction
