/-
**A tree that is minimized lazily.**

`MinimizedSedimentree` owns a tree and a flag that says whether the tree may not be in minimal form.
Mutations set the flag and do not minimize; reads minimize *in place* when the flag is set, so what
minimization drops is gone for the mutations that follow.
-/

import Subduction.Core.Sedimentree

namespace Subduction

/-- **A tree plus a "needs minimizing" flag.** -/
structure MinimizedSedimentree where
  tree : Sedimentree
  dirty : Bool

namespace MinimizedSedimentree

variable [IterOrder CommitId]

/-- `MinimizedSedimentree::default`: the empty tree, clean. -/
instance : EmptyCollection MinimizedSedimentree := ⟨⟨∅, false⟩⟩

/-- `MinimizedSedimentree::new`: a tree in an unknown state. -/
def new (tree : Sedimentree) : MinimizedSedimentree := ⟨tree, true⟩

/-- `MinimizedSedimentree::already_minimal`. -/
def alreadyMinimal (tree : Sedimentree) : MinimizedSedimentree := ⟨tree, false⟩

/-- `MinimizedSedimentree::ensure_minimized`. -/
def ensureMinimized (owner : MinimizedSedimentree) (depthMetric : DepthMetric) :
    MinimizedSedimentree :=
  if owner.dirty then ⟨owner.tree.minimizeInPlace depthMetric, false⟩ else owner

/-- `MinimizedSedimentree::minimized`: the minimal tree, and the owner that holds it. -/
def minimized (owner : MinimizedSedimentree) (depthMetric : DepthMetric) :
    MinimizedSedimentree × Sedimentree :=
  (owner.ensureMinimized depthMetric, (owner.ensureMinimized depthMetric).tree)

/-- `MinimizedSedimentree::heads`. -/
def heads (owner : MinimizedSedimentree) (depthMetric : DepthMetric) :
    MinimizedSedimentree × List CommitId :=
  (owner.ensureMinimized depthMetric, (owner.ensureMinimized depthMetric).tree.headsAssumingMinimal)

variable [Blake3] [Bijou64]

/-- `MinimizedSedimentree::add_commit`. -/
def addCommit (owner : MinimizedSedimentree) (commit : LooseCommit) : MinimizedSedimentree × Bool :=
  (⟨(owner.tree.addCommit commit).1, true⟩, (owner.tree.addCommit commit).2)

/-- `MinimizedSedimentree::add_fragment`. -/
def addFragment (owner : MinimizedSedimentree) (fragment : Fragment) :
    MinimizedSedimentree × Bool :=
  (⟨(owner.tree.addFragment fragment).1, true⟩, (owner.tree.addFragment fragment).2)

/-- `MinimizedSedimentree::merge`. -/
def merge (owner : MinimizedSedimentree) (other : Sedimentree) : MinimizedSedimentree :=
  ⟨owner.tree.merge other, true⟩

end MinimizedSedimentree

end Subduction
