/-
**Finite relations as maps of sets.**

A map from keys to finite sets of members, in which an entry that becomes empty is dropped. Every
operation is described by the pairs that are related after it.

* `MultiMap.members` — the members of a key; a key without an entry has none.
* `add`, `remove`, `removeMember` — one pair more, one pair less, all pairs of a member less.
-/

import Subduction.Lib.FinMap

namespace Subduction

abbrev MultiMap (K M : Type*) := FinMap K (Finset M)

namespace MultiMap

variable {K M : Type*} [DecidableEq K] [DecidableEq M] {map : MultiMap K M} {key other : K}
  {member another : M}

def members (map : MultiMap K M) (key : K) : Finset M := (map.get? key).getD ∅

/-- `entry(key).or_default().insert(member)`. -/
def add (map : MultiMap K M) (key : K) (member : M) : MultiMap K M :=
  map.insert key (insert member (map.members key))

def nonempty? (set : Finset M) : Option (Finset M) := if set = ∅ then none else some set

/-- The member is removed from the set of the key, and an entry that becomes empty is dropped. -/
def remove (map : MultiMap K M) (key : K) (member : M) : MultiMap K M :=
  match map.get? key with
  | none => map
  | some set =>
    if set.erase member = ∅ then map.erase key else map.insert key (set.erase member)

/-- The member is removed from every set, and the entries that become empty are dropped. -/
def removeMember (map : MultiMap K M) (member : M) : MultiMap K M :=
  map.filterMap fun set => nonempty? (set.erase member)

end MultiMap

end Subduction
