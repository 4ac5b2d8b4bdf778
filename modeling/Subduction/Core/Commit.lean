/-
**Stores of commits, and the fragments built from them.**

A `CommitStore` looks up commits by identifier; its lookups may fail and commits may be missing.
The loops are `Worklist.run` loops with the visits of the source.

* `CommitStore.fragment` — one fragment: the walk from a head through shallower commits, which
  stops at the commits at least as deep as the head, and the strip of what known fragments at the
  boundary already have.
* `FragmentState.transitiveAncestorMembers` — the members of all fragments up the boundary chain.
* `CommitStore.buildFragmentStore` — all fragments below a list of heads, and the post-pass that
  takes out of every fresh fragment what an ancestor fragment already has.
* `CommitStore.buildFragmentStorePar` — the variant that builds the fragments of a whole horizon from
  one snapshot and goes on with their boundaries.
* `FragmentState.toFragment` — the fragment as it is stored and exchanged.
-/

import Subduction.Core.Item
import Subduction.Lib.Worklist

namespace Subduction

/-- Types that have parent identifiers. -/
class Parents (Node : Type) where
  parents : Node → Finset CommitId

instance : Parents (Finset CommitId) where
  parents := id

/-- `FragmentError`. -/
inductive FragmentError (LookupError : Type) where
  | lookupError (error : LookupError)
  | missingCommit (id : CommitId)
  | depthZeroHead (id : CommitId)
deriving DecidableEq

/-- A store of commits. Finitely many identifiers resolve to a commit. -/
structure CommitStore (Node LookupError : Type) where
  lookup : CommitId → Except LookupError (Option Node)
  ids : Finset CommitId
  mem_ids : ∀ {id node}, lookup id = .ok (some node) → id ∈ ids

/-- A consistent unit of history: the commits from `headId` down to, and without, the boundary. -/
structure FragmentState (Node : Type) where
  headId : CommitId
  members : Finset CommitId
  checkpoints : Finset CommitId
  boundary : FinMap CommitId Node

namespace FragmentState

variable {Node : Type}

/-- `FragmentState::to_fragment`. -/
def toFragment (state : FragmentState Node) (sedimentreeId : SedimentreeId) (blobMeta : BlobMeta) :
    Fragment :=
  Fragment.new sedimentreeId state.headId state.boundary.keys state.checkpoints blobMeta

/-- `FragmentState::retain_members`. -/
def retainMembers (state : FragmentState Node) (predicate : CommitId → Bool) : FragmentState Node :=
  { state with
    members := state.members.filter fun c => predicate c = true
    checkpoints := state.checkpoints.filter fun c => predicate c = true }

variable [IterOrder CommitId]

/-- One step of `transitive_ancestor_members`. -/
def visitAncestor (known : FinMap CommitId (FragmentState Node)) (_ : Finset CommitId)
    (acc : Finset CommitId) (b : CommitId) : Finset CommitId × Except Empty (List CommitId) :=
  match known.get? b with
  | some anc => (acc ∪ anc.members, .ok (IterOrder.list anc.boundary.keys))
  | none => (acc, .ok [])

/-- The number of boundary keys of the known fragment at `b`. -/
def boundarySize (known : FinMap CommitId (FragmentState Node)) (b : CommitId) : Nat :=
  match known.get? b with
  | some state => state.boundary.keys.card
  | none => 0

/-- `FragmentState::transitive_ancestor_members`. -/
def transitiveAncestorMembers (state : FragmentState Node)
    (known : FinMap CommitId (FragmentState Node)) : Finset CommitId :=
  (Worklist.run id (visitAncestor known)
    (state.boundary.keys.card + ∑ b ∈ known.keys, boundarySize known b)
    (IterOrder.list state.boundary.keys).reverse ∅ ∅).1.2

end FragmentState

namespace CommitStore

variable {Node LookupError : Type} [Parents Node] [IterOrder CommitId]

variable (store : CommitStore Node LookupError)

def require (id : CommitId) : Except (FragmentError LookupError) Node :=
  match store.lookup id with
  | .error error => .error (.lookupError error)
  | .ok none => .error (.missingCommit id)
  | .ok (some node) => .ok node

/-- The number of parents of the commit stored at `id`. -/
def width (id : CommitId) : Nat :=
  match store.lookup id with
  | .ok (some node) => (Parents.parents node).card
  | _ => 0

/-- What the walk of `fragment` collects. -/
structure Walk (Node : Type) where
  members : Finset CommitId
  checkpoints : Finset CommitId
  boundary : FinMap CommitId Node

/-- One step of the walk of `fragment`. -/
def absorb (strategy : DepthMetric) (headDepth : Depth)
    (visited : Finset CommitId) (walk : Walk Node) (id : CommitId) :
    Walk Node × Except (FragmentError LookupError) (List CommitId) :=
  match store.require id with
  | .error failure => (walk, .error failure)
  | .ok node =>
    if strategy id ≥ headDepth then
      ({ walk with boundary := walk.boundary.insert id node }, .ok [])
    else
      ({ walk with
          members := insert id walk.members
          checkpoints :=
            if Depth.isBoundary (strategy id) && decide (strategy id < headDepth) then
              insert id walk.checkpoints
            else walk.checkpoints },
        .ok ((IterOrder.list (Parents.parents node)).filter fun p => p ∉ visited))

/-- The members of the known fragments whose heads are boundary keys. -/
def knownMembers (known : FinMap CommitId (FragmentState Node)) (boundary : Finset CommitId) :
    Finset CommitId :=
  boundary.biUnion fun b =>
    match known.get? b with
    | some state => state.members
    | none => ∅

/-- `CommitStore::fragment`. -/
def fragment (headId : CommitId)
    (known : FinMap CommitId (FragmentState Node)) (strategy : DepthMetric) :
    Except (FragmentError LookupError) (FragmentState Node) :=
  let headDepth := strategy headId
  if !Depth.isBoundary headDepth then .error (.depthZeroHead headId)
  else
    match store.require headId with
    | .error failure => .error failure
    | .ok headNode =>
      let queue := (IterOrder.list (Parents.parents headNode)).reverse
      match Worklist.run id (store.absorb strategy headDepth)
          (queue.length + ∑ id ∈ store.ids, store.width id) queue {headId} ⟨{headId}, ∅, ∅⟩ with
      | (_, some failure) => .error failure
      | ((_, walk), none) =>
        let strip := knownMembers known walk.boundary.keys
        .ok ⟨headId, walk.members \ strip, walk.checkpoints \ strip, walk.boundary⟩

/-- The states built so far and the heads of the fresh ones, in the order they were built. -/
structure Build (Node : Type) where
  known : FinMap CommitId (FragmentState Node)
  freshHeads : List CommitId

/-- One step of the walk of `build_fragment_store`. A head with incomplete history is skipped. -/
def buildStep (strategy : DepthMetric)
    (_ : Finset CommitId) (build : Build Node) (head : CommitId) :
    Build Node × Except (FragmentError LookupError) (List CommitId) :=
  match build.known.get? head with
  | some state => (build, .ok (IterOrder.list state.boundary.keys))
  | none =>
    if !Depth.isBoundary (strategy head) then
      match store.lookup head with
      | .error error => (build, .error (.lookupError error))
      | .ok (some node) => (build, .ok (IterOrder.list (Parents.parents node)))
      | .ok none => (build, .ok [])
    else
      match store.fragment head build.known strategy with
      | .ok state =>
        (⟨build.known.insert head state, build.freshHeads ++ [head]⟩,
          .ok (IterOrder.list state.boundary.keys))
      | .error (.missingCommit _) => (build, .ok [])
      | .error failure => (build, .error failure)

/-- One round of the post-pass: what an ancestor fragment has is taken out of the fragment. -/
def dedupe (known : FinMap CommitId (FragmentState Node)) (head : CommitId) :
    FinMap CommitId (FragmentState Node) :=
  let ancestorMembers :=
    match known.get? head with
    | some state => state.transitiveAncestorMembers known
    | none => ∅
  if ancestorMembers = ∅ then known
  else known.modify head fun state => state.retainMembers fun c => decide (c ∉ ancestorMembers)

/-- A bound on what one head can push on the queue of `build_fragment_store`. -/
def buildWeight (known : FinMap CommitId (FragmentState Node)) (id : CommitId) : Nat :=
  FragmentState.boundarySize known id + store.width id + store.ids.card

/-- `CommitStore::build_fragment_store`: the states known afterwards, and the fresh ones in the
order they were built or the error that stopped the walk. An error leaves the states that were
inserted before it, without the post-pass. -/
def buildFragmentStore (headIds : List CommitId)
    (known : FinMap CommitId (FragmentState Node)) (strategy : DepthMetric) :
    FinMap CommitId (FragmentState Node) ×
      Except (FragmentError LookupError) (List (FragmentState Node)) :=
  match Worklist.run id (store.buildStep strategy)
      (headIds.length + ∑ id ∈ store.ids ∪ known.keys, store.buildWeight known id)
      headIds.reverse ∅ ⟨known, []⟩ with
  | ((_, build), some failure) => (build.known, .error failure)
  | ((_, build), none) =>
    let final := build.freshHeads.foldl dedupe build.known
    (final, .ok (build.freshHeads.filterMap final.get?))

/-! ### The parallel builder -/

/-- What the walk of a horizon past the commits of depth zero has: those it met, those it has not
looked up yet (the last one first), and the heads it found. -/
structure LooseWalk where
  visited : Finset CommitId
  pending : List CommitId
  horizon : List CommitId

/-- A commit of the horizon or a parent: a head stays on the horizon, a commit of depth zero is
pending when it is met for the first time. -/
def LooseWalk.sift (strategy : DepthMetric) (walk : LooseWalk) (id : CommitId) : LooseWalk :=
  if Depth.isBoundary (strategy id) then { walk with horizon := walk.horizon ++ [id] }
  else if id ∈ walk.visited then walk
  else { walk with visited := insert id walk.visited, pending := id :: walk.pending }

def unknownOf (known : FinMap CommitId (FragmentState Node)) (ids : List CommitId) : List CommitId :=
  ids.filter fun id => id ∉ known.keys

def walkLoose (store : CommitStore Node LookupError) (strategy : DepthMetric)
    (known : FinMap CommitId (FragmentState Node)) : Nat → LooseWalk → Except LookupError (List CommitId)
  | 0, walk => .ok walk.horizon
  | fuel + 1, walk =>
    match walk.pending with
    | [] => .ok walk.horizon
    | id :: pending =>
      match store.lookup id with
      | .error error => .error error
      | .ok none => store.walkLoose strategy known fuel { walk with pending := pending }
      | .ok (some node) => store.walkLoose strategy known fuel
          ((unknownOf known (IterOrder.list (Parents.parents node))).foldl
            (LooseWalk.sift strategy) { walk with pending := pending })

/-- **The heads of a horizon** that are built: those on it, and those behind its commits of depth
zero. No head is taken out that is there more than once. -/
def parHorizon (strategy : DepthMetric)
    (known : FinMap CommitId (FragmentState Node)) (horizon : List CommitId) :
    Except LookupError (List CommitId) :=
  let unknown := unknownOf known horizon
  match store.walkLoose strategy known (unknown.length + ∑ id ∈ store.ids, store.width id)
      (unknown.foldl (LooseWalk.sift strategy) ⟨∅, [], []⟩) with
  | .error error => .error error
  | .ok heads => .ok (unknownOf known heads)

/-- The fragments of one level, all built from one snapshot. A head with incomplete history is
skipped, the first other error stops the builder. -/
def parStates (store : CommitStore Node LookupError) (strategy : DepthMetric)
    (snapshot : FinMap CommitId (FragmentState Node)) :
    List CommitId → Except (FragmentError LookupError) (List (CommitId × FragmentState Node))
  | [] => .ok []
  | head :: heads =>
    match store.fragment head snapshot strategy with
    | .error (.missingCommit _) => store.parStates strategy snapshot heads
    | .error failure => .error failure
    | .ok state => (store.parStates strategy snapshot heads).map ((head, state) :: ·)

def Build.merge (build : Build Node) (item : CommitId × FragmentState Node) : Build Node :=
  ⟨build.known.insert item.1 item.2, build.freshHeads ++ [item.1]⟩

/-- The loop over the horizons: the boundaries of one level are the horizon of the next. -/
def parLevels (store : CommitStore Node LookupError) (strategy : DepthMetric) :
    Nat → List CommitId → Build Node → Build Node × Option (FragmentError LookupError)
  | 0, _, build => (build, none)
  | fuel + 1, horizon, build =>
    match store.parHorizon strategy build.known horizon with
    | .error error => (build, some (.lookupError error))
    | .ok heads =>
      if heads = [] then (build, none)
      else
        match store.parStates strategy build.known heads with
        | .error failure => (build, some failure)
        | .ok states => store.parLevels strategy fuel
            (states.flatMap fun item => IterOrder.list item.2.boundary.keys)
            (states.foldl Build.merge build)

/-- `CommitStore::build_fragment_store_par`. Every level but the last one builds a fragment for a
commit of the store. -/
def buildFragmentStorePar (headIds : List CommitId)
    (known : FinMap CommitId (FragmentState Node)) (strategy : DepthMetric) :
    FinMap CommitId (FragmentState Node) ×
      Except (FragmentError LookupError) (List (FragmentState Node)) :=
  match store.parLevels strategy (store.ids.card + 1) headIds ⟨known, []⟩ with
  | (build, some failure) => (build.known, .error failure)
  | (build, none) =>
    let final := build.freshHeads.foldl dedupe build.known
    (final, .ok (build.freshHeads.filterMap final.get?))

end CommitStore

end Subduction
