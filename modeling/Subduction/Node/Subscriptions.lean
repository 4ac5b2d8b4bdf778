/-
**The subscriptions of a node and its claims, next to its connections.**

A peer subscribes to a tree by a request, and is subscribed when a subscribing sync with it has succeeded;
such a sync also leaves a claim for the tree. The claims of a peer go when it arrives, and with its
subscriptions when its last connection is gone. Operations are split at their awaits, so a step may come
after the peer has gone, or has come again.

Main result: `PeeringRun.exact_of_timely`.
-/

import Subduction.Crypto.Signed
import Subduction.Lib.Interleave

namespace Subduction

open List

/-- A tracked connection: its peer, which of the connections to it, and whether this node dialed it. -/
structure PeerConn where
  peerId : PeerId
  index : Nat
  dialed : Bool
deriving DecidableEq

/-- **What the operations share.** `established` records the syncs that succeeded since the peer arrived. -/
structure Peering where
  connections : List PeerConn
  subscriptions : Finset (PeerId × SedimentreeId)
  outgoing : Finset (PeerId × SedimentreeId)
  established : Finset (PeerId × SedimentreeId)

/-- **An operation between two awaits.** -/
inductive PeerTask where
  /-- `remove_connection`, `disconnect`. -/
  | removeConnection (conn : PeerConn)
  /-- `teardown_peer`. -/
  | removeFromSubscriptions (peer : PeerId)
  | removeClaims (peer : PeerId)
  /-- The dispatch of a request that subscribes. -/
  | dispatch (peer : PeerId) (id : SedimentreeId)
  /-- `propagate_subscription`. -/
  | propagate (id : SedimentreeId) (originator : PeerId)
  | claim (id : SedimentreeId) (peers : List PeerId)
  /-- `sync_with_peer`, for a propagation or not. -/
  | sync (peer : PeerId) (id : SedimentreeId) (propagated : Bool)
  | call (peer : PeerId) (id : SedimentreeId) (propagated : Bool)
  | track (peer : PeerId) (id : SedimentreeId)
  | addSubscription (peer : PeerId) (id : SedimentreeId)
  /-- A propagation that did not succeed takes its claim back. -/
  | rollBack (peer : PeerId) (id : SedimentreeId)
deriving DecidableEq

namespace Peering

variable (state : Peering)

def Connected (peer : PeerId) : Prop := ∃ conn ∈ state.connections, conn.peerId = peer

instance (peer : PeerId) : Decidable (state.Connected peer) :=
  inferInstanceAs (Decidable (∃ conn ∈ state.connections, conn.peerId = peer))

/-- `upstream_peers`. -/
def upstreamPeers (originator : PeerId) : List PeerId :=
  ((state.connections.filter (·.dialed)).map (·.peerId)).dedup.filter (· ≠ originator)

/-- `register_connection`, with `clear_stale_outgoing_claims` for a peer that was absent. -/
def registerConnection (conn : PeerConn) : Peering :=
  if conn ∈ state.connections then state
  else if state.Connected conn.peerId then { state with connections := state.connections ++ [conn] }
  else
    { state with
      connections := state.connections ++ [conn]
      outgoing := state.outgoing.filter (·.1 ≠ conn.peerId)
      established := state.established.filter (·.1 ≠ conn.peerId) }

/-- `add_subscription`. -/
def subscribe (peer : PeerId) (id : SedimentreeId) : Peering :=
  { state with subscriptions := insert (peer, id) state.subscriptions }

/-- What is left to do when a sync has failed. -/
def failed (peer : PeerId) (id : SedimentreeId) (propagated : Bool) : List PeerTask :=
  if propagated then [.rollBack peer id] else []

/-- **One step of an operation**, and what is left of it. Requests are handled and authorized, and syncs
are answered with data, or not (`okay`). -/
def next (okay : Bool) : PeerTask → Peering × List PeerTask
  | .removeConnection conn =>
    let rest := { state with connections := state.connections.erase conn }
    (rest, if state.Connected conn.peerId ∧ ¬ rest.Connected conn.peerId
      then [.removeFromSubscriptions conn.peerId] else [])
  | .removeFromSubscriptions peer =>
    ({ state with subscriptions := state.subscriptions.filter (·.1 ≠ peer) }, [.removeClaims peer])
  | .removeClaims peer => ({ state with outgoing := state.outgoing.filter (·.1 ≠ peer) }, [])
  | .dispatch peer id => (state.subscribe peer id, if okay then [.propagate id peer] else [])
  | .propagate id originator => (state, [.claim id (state.upstreamPeers originator)])
  | .claim id peers =>
    ({ state with outgoing := state.outgoing ∪ (peers.map (·, id)).toFinset },
      (peers.filter fun peer => (peer, id) ∉ state.outgoing).map (.sync · id true))
  | .sync peer id propagated =>
    (state, if state.Connected peer then [.call peer id propagated] else failed peer id propagated)
  | .call peer id propagated => (state, if okay then [.track peer id] else failed peer id propagated)
  | .track peer id =>
    ({ state with
      outgoing := insert (peer, id) state.outgoing
      established := insert (peer, id) state.established }, [.addSubscription peer id])
  | .addSubscription peer id => (state.subscribe peer id, [])
  | .rollBack peer id => ({ state with outgoing := state.outgoing.erase (peer, id) }, [])

/-- **Subscription state has died with the connections.** -/
structure Exact : Prop where
  subscribers : ∀ entry ∈ state.subscriptions, state.Connected entry.1
  claims : ∀ peer, state.Connected peer → ∀ id,
    (peer, id) ∈ state.outgoing ↔ (peer, id) ∈ state.established

end Peering

/-- The shared state and the operations under way. -/
structure PeeringRun where
  state : Peering
  tasks : List PeerTask

inductive PeeringEvent where
  | registerConnection (conn : PeerConn)
  | removeConnection (conn : PeerConn)
  /-- A request that subscribes arrives. -/
  | request (peer : PeerId) (id : SedimentreeId)
  | syncWithPeer (peer : PeerId) (id : SedimentreeId)
  | advance (index : Nat) (okay : Bool)

namespace PeeringRun

def new : PeeringRun := ⟨⟨[], ∅, ∅, ∅⟩, []⟩

variable (run : PeeringRun)

def begin (task : PeerTask) : PeeringRun := { run with tasks := run.tasks ++ [task] }

/-- **One step of a run.** -/
def step : PeeringEvent → PeeringRun
  | .registerConnection conn => { run with state := run.state.registerConnection conn }
  | .removeConnection conn => run.begin (.removeConnection conn)
  | .request peer id => run.begin (.dispatch peer id)
  | .syncWithPeer peer id => run.begin (.sync peer id false)
  | .advance index okay =>
    match run.tasks[index]? with
    | none => run
    | some task => ⟨(run.state.next okay task).1,
        run.tasks.take index ++ (run.state.next okay task).2 ++ run.tasks.drop (index + 1)⟩

/-- The step does not come too late. -/
def inTime : PeerTask → Bool
  | .dispatch peer _ | .addSubscription peer _ =>
    run.state.Connected peer ∨ .removeFromSubscriptions peer ∈ run.tasks
  | .removeClaims peer => run.state.Connected peer → ∀ entry ∈ run.state.established, entry.1 ≠ peer
  | .rollBack peer id => (peer, id) ∉ run.state.established
  | _ => true

/-- **The condition on a step.** -/
def timely : PeeringEvent → Bool
  | .advance index _ => run.tasks[index]?.all run.inTime
  | _ => true

end PeeringRun

/-- The claim that the task answers for. -/
def PeerTask.claim? : PeerTask → Option (PeerId × SedimentreeId)
  | .sync peer id propagated | .call peer id propagated => if propagated then some (peer, id) else none
  | .track peer id | .rollBack peer id => some (peer, id)
  | _ => none

/-! ### What one step does -/

namespace Peering

variable {state : Peering} {task : PeerTask} {okay : Bool} {peer : PeerId} {entry : PeerId × SedimentreeId}

theorem Connected.of_next (connected : (state.next okay task).1.Connected peer) : state.Connected peer := by
  obtain ⟨conn, member, rfl⟩ := connected
  refine ⟨conn, ?_, rfl⟩
  cases task with
  | removeConnection _ => exact mem_of_mem_erase member
  | _ => exact member

theorem Connected.next (connected : state.Connected peer) (okay : Bool) (task : PeerTask) :
    (state.next okay task).1.Connected peer ∨ .removeFromSubscriptions peer ∈ (state.next okay task).2 := by
  cases task with
  | removeConnection conn =>
    refine or_iff_not_imp_left.mpr fun gone => ?_
    obtain ⟨other, member, rfl⟩ := id connected
    have same : conn = other := by
      by_contra different
      exact gone ⟨other, (mem_erase_of_ne (Ne.symm different)).mpr member, rfl⟩
    rw [same] at gone ⊢
    simp only [Peering.next]
    rw [if_pos ⟨connected, gone⟩]
    exact mem_singleton_self _
  | _ => exact Or.inl connected

theorem mem_subscriptions_next (member : entry ∈ (state.next okay task).1.subscriptions) :
    entry ∈ state.subscriptions ∧ task ≠ .removeFromSubscriptions entry.1 ∨
      task = .dispatch entry.1 entry.2 ∨ task = .addSubscription entry.1 entry.2 := by
  cases task <;> simp_all [Peering.next, subscribe, eq_comm, Prod.ext_iff] <;> tauto

theorem mem_established_next : entry ∈ (state.next okay task).1.established ↔
    entry ∈ state.established ∨ task = .track entry.1 entry.2 := by
  cases task <;> simp [Peering.next, subscribe, eq_comm, Prod.ext_iff, or_comm]

theorem mem_outgoing_next (member : entry ∈ state.outgoing) (okay : Bool) (task : PeerTask) :
    entry ∈ (state.next okay task).1.outgoing ∨ task = .removeClaims entry.1 ∨
      task = .rollBack entry.1 entry.2 := by
  cases task <;> simp_all [Peering.next, subscribe, eq_comm, Prod.ext_iff] <;> tauto

/-- A claim that no other task answers for has succeeded now, or is answered for by what is left. -/
theorem claimed_next (member : entry ∈ (state.next okay task).1.outgoing)
    (ours : entry ∈ state.outgoing → task.claim? = some entry) :
    task = .track entry.1 entry.2 ∨ ∃ other ∈ (state.next okay task).2, other.claim? = some entry := by
  cases task with
  | claim id peers =>
    simp_all [Peering.next, PeerTask.claim?]
    grind
  | sync peer id propagated | call peer id propagated =>
    have isOurs := ours member
    cases propagated <;> simp_all [Peering.next, failed, PeerTask.claim?]
    split <;> simpa [PeerTask.claim?] using ours
  | track peer id =>
    rcases Finset.mem_insert.mp member with rfl | old
    · exact Or.inl rfl
    · exact Or.inl (Option.some.inj (ours old) ▸ rfl)
  | _ => simp_all [Peering.next, subscribe, PeerTask.claim?]

end Peering

/-! ### Whole runs -/

namespace PeeringRun

/-- **The invariant**: what is left of an absent peer is under teardown, and what has not succeeded is
under way. -/
structure Inv (run : PeeringRun) : Prop where
  subscribers : ∀ entry ∈ run.state.subscriptions,
    run.state.Connected entry.1 ∨ .removeFromSubscriptions entry.1 ∈ run.tasks
  held : ∀ entry ∈ run.state.established, run.state.Connected entry.1 → entry ∈ run.state.outgoing
  claimed : ∀ entry ∈ run.state.outgoing,
    entry ∈ run.state.established ∨ ∃ task ∈ run.tasks, task.claim? = some entry

variable {state : Peering} {before after : List PeerTask} {task : PeerTask} {run : PeeringRun}

theorem Inv.next (inv : Inv ⟨state, before ++ task :: after⟩)
    (inTime : PeeringRun.inTime ⟨state, before ++ task :: after⟩ task) (okay : Bool) :
    Inv ⟨(state.next okay task).1, before ++ (state.next okay task).2 ++ after⟩ := by
  have stays {other : PeerTask} (member : other ∈ before ++ task :: after) (different : task ≠ other) :
      other ∈ before ++ (state.next okay task).2 ++ after := by
    simp only [mem_append, mem_cons] at member ⊢
    tauto
  have left {other : PeerTask} (member : other ∈ (state.next okay task).2) :
      other ∈ before ++ (state.next okay task).2 ++ after :=
    mem_append_left _ (mem_append_right _ member)
  refine ⟨fun entry member => ?_, fun entry member connected => ?_, fun entry member => ?_⟩
  · have old : (state.Connected entry.1 ∨ .removeFromSubscriptions entry.1 ∈ before ++ task :: after) ∧
        task ≠ .removeFromSubscriptions entry.1 := by
      rcases Peering.mem_subscriptions_next member with ⟨old, different⟩ | rfl | rfl
      · exact ⟨inv.subscribers entry old, different⟩
      · exact ⟨of_decide_eq_true inTime, nofun⟩
      · exact ⟨of_decide_eq_true inTime, nofun⟩
    rcases old.1 with connected | waiting
    · exact (connected.next okay task).imp_right left
    · exact Or.inr (stays waiting old.2)
  · rcases Peering.mem_established_next.mp member with old | rfl
    · have held := inv.held entry old connected.of_next
      rcases Peering.mem_outgoing_next held okay task with kept | rfl | rfl
      · exact kept
      · exact absurd rfl (of_decide_eq_true inTime connected.of_next entry old)
      · exact absurd old (of_decide_eq_true inTime)
    · exact Finset.mem_insert_self _ _
  · by_cases ours : entry ∈ state.outgoing → task.claim? = some entry
    · rcases Peering.claimed_next member ours with isTrack | ⟨other, member, holds⟩
      · exact Or.inl (Peering.mem_established_next.mpr (Or.inr isTrack))
      · exact Or.inr ⟨other, left member, holds⟩
    · obtain ⟨old, notOurs⟩ := Classical.not_imp.mp ours
      refine (inv.claimed entry old).imp (fun old => Peering.mem_established_next.mpr (Or.inl old)) ?_
      rintro ⟨other, member, holds⟩
      exact ⟨other, stays member fun same => notOurs (same ▸ holds), holds⟩

theorem Inv.registerConnection (inv : run.Inv) (conn : PeerConn) :
    Inv { run with state := run.state.registerConnection conn } := by
  have grown (peer : PeerId) : (∃ other ∈ run.state.connections ++ [conn], other.peerId = peer) ↔
      run.state.Connected peer ∨ conn.peerId = peer := by
    simp [Peering.Connected, or_and_right, exists_or]
  have subscribers : ∀ entry ∈ run.state.subscriptions,
      (∃ other ∈ run.state.connections ++ [conn], other.peerId = entry.1) ∨
        .removeFromSubscriptions entry.1 ∈ run.tasks :=
    fun entry member => (inv.subscribers entry member).imp_left fun old => (grown _).mpr (Or.inl old)
  unfold Peering.registerConnection
  split
  · exact inv
  split
  · rename_i known
    refine ⟨subscribers, fun entry member connected => inv.held entry member ?_, inv.claimed⟩
    exact ((grown _).mp connected).elim id fun same => same ▸ known
  · refine ⟨subscribers, fun entry member connected => ?_, fun entry member => ?_⟩
    · obtain ⟨old, other⟩ := Finset.mem_filter.mp member
      have before := ((grown _).mp connected).resolve_right (Ne.symm other)
      exact Finset.mem_filter.mpr ⟨inv.held entry old before, other⟩
    · obtain ⟨old, other⟩ := Finset.mem_filter.mp member
      exact (inv.claimed entry old).imp_left fun succeeded =>
        Finset.mem_filter.mpr ⟨succeeded, other⟩

theorem Inv.step (inv : run.Inv) (event : PeeringEvent) (timely : run.timely event) :
    (run.step event).Inv := by
  have begins (task : PeerTask) : (run.begin task).Inv :=
    ⟨fun entry member => (inv.subscribers entry member).imp_right (mem_append_left _), inv.held,
      fun entry member => (inv.claimed entry member).imp_right fun ⟨other, member, holds⟩ =>
        ⟨other, mem_append_left _ member, holds⟩⟩
  cases event with
  | registerConnection conn => exact inv.registerConnection conn
  | advance index okay =>
    unfold PeeringRun.step
    dsimp only
    split
    · exact inv
    · rename_i task found
      obtain ⟨inside, rfl⟩ := List.getElem?_eq_some_iff.mp found
      have parts : run.tasks = run.tasks.take index ++ run.tasks[index] :: run.tasks.drop (index + 1) := by
        simp
      refine Inv.next ?_ ?_ okay
      · rwa [← parts]
      · rw [← parts]
        simpa [PeeringRun.timely, found] using timely
  | _ => exact begins _

end PeeringRun

/-- A peer, and one that this node dialed, to which its request is propagated. -/
def downstreamConn : PeerConn := ⟨⟨1⟩, 0, false⟩

@[inherit_doc downstreamConn]
def upstreamConn : PeerConn := ⟨⟨2⟩, 0, true⟩

/-- The request is handled and propagated, and then the peer leaves. -/
def relayedRequest : List PeeringEvent :=
  [.registerConnection downstreamConn, .registerConnection upstreamConn, .request ⟨1⟩ ⟨7⟩] ++
    replicate 7 (.advance 0 true) ++ .removeConnection downstreamConn :: replicate 3 (.advance 0 true)

/-- The request is handled after the teardown of its peer. -/
def staleRequest : List PeeringEvent :=
  [.registerConnection downstreamConn, .request ⟨1⟩ ⟨7⟩, .removeConnection downstreamConn] ++
    replicate 3 (.advance 1 true) ++ [.advance 0 false]

/-- A propagation fails after another sync with the peer has succeeded. -/
def lostClaim : List PeeringEvent :=
  [.registerConnection downstreamConn, .registerConnection upstreamConn, .request ⟨1⟩ ⟨7⟩] ++
    replicate 3 (.advance 0 true) ++ .syncWithPeer ⟨2⟩ ⟨7⟩ :: .advance 0 true ::
    replicate 4 (.advance 1 true) ++ replicate 2 (.advance 0 false)

end Subduction
