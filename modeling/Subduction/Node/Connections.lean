/-
**The connections of a node: the calls sent over them, and the departures of peers.**

A peer may have several connections. Each brings a multiplexer, but a call over any of them waits in the
first multiplexer of the peer, and the multiplexers go only with the last connection. The handler is told
of a departure by the listen loop alone, and only if the loop itself removed the last connection.

* `Calls` — the connections and the multiplexers; **`Calls.sound_iff`** — no call outlives its connection,
  all along a run, just when no removal leaves the peer another connection and no call is sent over a
  connection that is gone.
* `Departures` — the connections, the departures and the calls of the hook; **`Departures.reported_iff`**
  — every departure is reported once just when the listen loop makes all removals of a last connection.
-/

import Mathlib.Logic.Function.Basic
import Subduction.Connection.Message
import Subduction.Lib.Interleave

namespace Subduction

open List Function

/-- An authenticated connection: the peer, and which of the connections to it. -/
structure Conn where
  peerId : PeerId
  index : Nat
deriving DecidableEq

/-! ### Taking a connection out of a list -/

inductive RemoveResult where
  | removed (rest : List Conn)
  | wasLast
  | notFound
deriving DecidableEq

/-- `remove_item`: the last of the others takes the place of a removed head. -/
def removeItem : List Conn → Conn → RemoveResult
  | [], _ => .notFound
  | head :: tail, conn =>
    if head = conn then
      match tail.getLast? with
      | some newHead => .removed (newHead :: tail.dropLast)
      | none => .wasLast
    else if conn ∈ tail then .removed (head :: tail.erase conn)
    else .notFound

theorem removeItem_cases (conns : List Conn) (conn : Conn) :
    (∃ rest, removeItem conns conn = .removed rest ∧ rest.length + 1 = conns.length ∧
        conn ∈ conns ∧ conns ≠ [conn]) ∨
      (removeItem conns conn = .wasLast ∧ conns = [conn]) ∨
      (removeItem conns conn = .notFound ∧ conn ∉ conns) := by
  cases conns with
  | nil => exact .inr (.inr ⟨rfl, not_mem_nil⟩)
  | cons head tail =>
    by_cases same : head = conn
    · subst same
      cases last : tail.getLast? with
      | none =>
        refine .inr (.inl ⟨by simp [removeItem, last], ?_⟩)
        rw [List.getLast?_eq_none_iff.mp last]
      | some newHead =>
        have filled : tail ≠ [] := by rintro rfl; simp at last
        refine .inl ⟨newHead :: tail.dropLast, by simp [removeItem, last], ?_, mem_cons_self,
          by simpa using filled⟩
        have := length_pos_iff.mpr filled
        simp only [length_cons, length_dropLast]
        omega
    · by_cases present : conn ∈ tail
      · refine .inl ⟨head :: tail.erase conn, by simp [removeItem, same, present], ?_,
          mem_cons_of_mem _ present, fun alone => same (List.cons.inj alone).1⟩
        have := length_pos_of_mem present
        simp only [length_cons, length_erase_of_mem present]
        omega
      · refine .inr (.inr ⟨by simp [removeItem, same, present], ?_⟩)
        simp [present, Ne.symm same]

/-! ### Pending calls -/

/-- **The pending calls of a multiplexer**: the request, and the connection it was sent over. -/
abbrev Pending := List (RequestId × Conn)

/-- `resolve_pending`, `cancel_pending`. -/
def Pending.remove (mux : Pending) (request : RequestId) : Pending := mux.filter (·.1 ≠ request)

/-- The listen loop gives a response to the first multiplexer that waits for it. -/
def resolveFirst (request : RequestId) : List Pending → List Pending
  | [] => []
  | mux :: others =>
    if mux.any (·.1 = request) then Pending.remove mux request :: others
    else mux :: resolveFirst request others

/-- The connections and the multiplexers of every peer. -/
structure Calls where
  connections : PeerId → List Conn
  multiplexers : PeerId → List Pending

inductive CallStep where
  | registerConnection (conn : Conn)
  /-- `remove_connection`, `disconnect`. -/
  | removeConnection (conn : Conn)
  | disconnectFromPeer (peer : PeerId)
  | disconnectAll
  /-- `call_inner` over a connection of an earlier snapshot; `sent` is whether the transport took it. -/
  | call (conn : Conn) (request : RequestId) (sent : Bool)
  | response (peer : PeerId) (request : RequestId)
  /-- A caller gives up: the guard takes its request out of the multiplexer it was put in. -/
  | giveUp (peer : PeerId) (index : Nat) (request : RequestId)

namespace Calls

def start : Calls := ⟨fun _ => [], fun _ => []⟩

def setPeer (calls : Calls) (peer : PeerId) (conns : List Conn) (muxes : List Pending) : Calls :=
  ⟨Function.update calls.connections peer conns, Function.update calls.multiplexers peer muxes⟩

def step (calls : Calls) : CallStep → Calls
  | .registerConnection conn =>
    if conn ∈ calls.connections conn.peerId then calls
    else calls.setPeer conn.peerId (calls.connections conn.peerId ++ [conn])
      (calls.multiplexers conn.peerId ++ [[]])
  | .removeConnection conn =>
    match removeItem (calls.connections conn.peerId) conn with
    | .removed rest => calls.setPeer conn.peerId rest (calls.multiplexers conn.peerId)
    -- The multiplexers are detached, and their callers told `ResponseDropped`.
    | .wasLast => calls.setPeer conn.peerId [] []
    | .notFound => calls
  | .disconnectFromPeer peer =>
    if calls.connections peer = [] then calls else calls.setPeer peer [] []
  | .disconnectAll => start
  | .call conn request sent =>
    match calls.multiplexers conn.peerId with
    | [] => calls
    | mux :: others =>
      calls.setPeer conn.peerId (calls.connections conn.peerId)
        ((if sent then (request, conn) :: Pending.remove mux request
          else Pending.remove mux request) :: others)
  | .response peer request =>
    calls.setPeer peer (calls.connections peer) (resolveFirst request (calls.multiplexers peer))
  | .giveUp peer index request =>
    calls.setPeer peer (calls.connections peer)
      ((calls.multiplexers peer).modify index (Pending.remove · request))

/-- **No call outlives its connection**, and no multiplexer outlives all it could serve. -/
structure Sound (calls : Calls) : Prop where
  tracked : ∀ peer, ∀ entry ∈ (calls.multiplexers peer).flatten, entry.2 ∈ calls.connections peer
  length_le : ∀ peer, (calls.multiplexers peer).length ≤ (calls.connections peer).length

/-- **A removal takes the only connection of its peer, and a call goes over a connection that is there.** -/
def Spared (calls : Calls) : CallStep → Prop
  | .removeConnection conn =>
    conn ∈ calls.connections conn.peerId → calls.connections conn.peerId = [conn]
  | .call conn _ sent =>
    sent = true → calls.connections conn.peerId ≠ [] → conn ∈ calls.connections conn.peerId
  | _ => True

/-- The invariant: a multiplexer for every connection. -/
def Paired (calls : Calls) : Prop :=
  ∀ peer, (calls.multiplexers peer).length = (calls.connections peer).length ∧
    ∀ entry ∈ (calls.multiplexers peer).flatten, entry.2 ∈ calls.connections peer

theorem Paired.sound {calls : Calls} (paired : calls.Paired) : calls.Sound :=
  ⟨fun peer => (paired peer).2, fun peer => (paired peer).1.le⟩

theorem Paired.setPeer {calls : Calls} (paired : calls.Paired) {peer : PeerId} {conns : List Conn}
    {muxes : List Pending} (length : muxes.length = conns.length)
    (tracked : ∀ entry ∈ muxes.flatten, entry.2 ∈ conns) : (calls.setPeer peer conns muxes).Paired := by
  intro other
  by_cases same : other = peer
  · subst same
    simp only [Calls.setPeer, update_self]
    exact ⟨length, tracked⟩
  · simpa [Calls.setPeer, same] using paired other

theorem mem_remove {mux : Pending} {request : RequestId} {entry : RequestId × Conn}
    (kept : entry ∈ Pending.remove mux request) : entry ∈ mux := mem_of_mem_filter kept

theorem length_resolveFirst (request : RequestId) (muxes : List Pending) :
    (resolveFirst request muxes).length = muxes.length := by
  fun_induction resolveFirst request muxes with
  | case1 => rfl
  | case2 => rfl
  | case3 mux others absent ih => simp [ih]

theorem flatten_resolveFirst (request : RequestId) (muxes : List Pending) :
    (resolveFirst request muxes).flatten ⊆ muxes.flatten := by
  fun_induction resolveFirst request muxes with
  | case1 => exact List.Subset.refl _
  | case2 mux others present =>
    intro entry inside
    rw [flatten_cons, mem_append] at inside ⊢
    exact inside.imp_left mem_remove
  | case3 mux others absent ih =>
    intro entry inside
    rw [flatten_cons, mem_append] at inside ⊢
    exact inside.imp_right (ih ·)

theorem flatten_modify_remove (request : RequestId) (muxes : List Pending) (index : Nat) :
    (muxes.modify index (Pending.remove · request)).flatten ⊆ muxes.flatten := by
  induction muxes generalizing index with
  | nil => simp
  | cons mux others ih =>
    intro entry inside
    cases index with
    | zero =>
      rw [modify_zero_cons, flatten_cons, mem_append] at inside
      exact mem_append.mpr (inside.imp_left mem_remove)
    | succ index =>
      rw [modify_succ_cons, flatten_cons, mem_append] at inside
      exact mem_append.mpr (inside.imp_right (ih index ·))

theorem Paired.step {calls : Calls} (paired : calls.Paired) (turn : CallStep)
    (spared : calls.Spared turn) : (calls.step turn).Paired := by
  cases turn with
  | registerConnection conn =>
    obtain ⟨length, tracked⟩ := paired conn.peerId
    simp only [Calls.step]
    split
    · exact paired
    · refine paired.setPeer (by simp [length]) fun entry inside => ?_
      rw [flatten_append, flatten_singleton, append_nil] at inside
      exact mem_append_left _ (tracked entry inside)
  | removeConnection conn =>
    simp only [Calls.step]
    obtain ⟨rest, result, -, present, more⟩ | ⟨result, -⟩ | ⟨result, -⟩ :=
      removeItem_cases (calls.connections conn.peerId) conn
    · exact absurd (spared present) more
    · rw [result]
      exact paired.setPeer rfl (by simp)
    · rw [result]
      exact paired
  | disconnectFromPeer peer =>
    simp only [Calls.step]
    split
    · exact paired
    · exact paired.setPeer rfl (by simp)
  | disconnectAll => exact fun _ => ⟨rfl, fun _ inside => absurd inside not_mem_nil⟩
  | call conn request sent =>
    obtain ⟨length, tracked⟩ := paired conn.peerId
    simp only [Calls.step]
    split
    · exact paired
    · rename_i mux others found
      rw [found] at length tracked
      have open_ : calls.connections conn.peerId ≠ [] := by
        intro none
        rw [none] at length
        cases length
      refine paired.setPeer (by simpa using length) fun entry inside => ?_
      rw [flatten_cons, mem_append] at inside
      rw [flatten_cons] at tracked
      rcases inside with first | later
      · split at first
        · rcases mem_cons.mp first with rfl | before
          · exact spared ‹_› open_
          · exact tracked entry (mem_append_left _ (mem_remove before))
        · exact tracked entry (mem_append_left _ (mem_remove first))
      · exact tracked entry (mem_append_right _ later)
  | response peer request =>
    obtain ⟨length, tracked⟩ := paired peer
    exact paired.setPeer ((length_resolveFirst request _).trans length) fun entry inside =>
      tracked entry (flatten_resolveFirst request _ inside)
  | giveUp peer index request =>
    obtain ⟨length, tracked⟩ := paired peer
    exact paired.setPeer (by rw [length_modify, length]) fun entry inside =>
      tracked entry (flatten_modify_remove request _ index inside)

theorem Paired.not_sound_step {calls : Calls} (paired : calls.Paired) (turn : CallStep)
    (other : ¬ calls.Spared turn) : ¬ (calls.step turn).Sound := by
  intro sound
  cases turn with
  | removeConnection conn =>
    obtain ⟨present, more⟩ := Classical.not_imp.mp other
    have fits := sound.length_le conn.peerId
    simp only [Calls.step] at fits
    obtain ⟨rest, result, shorter, -⟩ | ⟨-, only⟩ | ⟨-, absent⟩ :=
      removeItem_cases (calls.connections conn.peerId) conn
    · simp only [result, Calls.setPeer, update_self, (paired conn.peerId).1] at fits
      omega
    · exact more only
    · exact absent present
  | call conn request sent =>
    simp only [Spared, Classical.not_imp] at other
    obtain ⟨rfl, filled, absent⟩ := other
    have tracked := sound.tracked conn.peerId (request, conn)
    simp only [Calls.step] at tracked
    split at tracked
    · rename_i found
      have length := (paired conn.peerId).1
      rw [found] at length
      exact filled (length_eq_zero_iff.mp length.symm)
    · simp only [Calls.setPeer, update_self] at tracked
      exact absent (tracked (by simp))
  | _ => exact other trivial

/-- **No call outlives its connection just when connections of a peer go together.** -/
theorem sound_iff (steps : List CallStep) :
    (∀ before, before <+: steps → (before.foldl Calls.step start).Sound) ↔
      Along Calls.step Spared start steps :=
  forall_prefix_iff_along Paired Sound (fun _ turn paired => paired.step turn)
    (fun _ => Paired.sound) (fun _ turn paired => paired.not_sound_step turn)
    (fun _ => ⟨rfl, fun _ inside => absurd inside List.not_mem_nil⟩) steps

end Calls

/-- **A call over the second connection of a peer** waits with the calls of the first. When the second
connection goes, the call is still pending and both multiplexers are kept. -/
theorem stranded_call : let peer : PeerId := ⟨1⟩
    let request : RequestId := ⟨⟨2⟩, 0⟩
    let calls := [CallStep.registerConnection ⟨peer, 0⟩, .registerConnection ⟨peer, 1⟩,
      .call ⟨peer, 1⟩ request true, .removeConnection ⟨peer, 1⟩].foldl Calls.step Calls.start
    calls.connections peer = [⟨peer, 0⟩] ∧ calls.multiplexers peer = [[(request, ⟨peer, 1⟩)], []] := by
  decide +kernel

/-! ### Departures -/

/-- **The connections of every peer, how often it left and how often the hook was called**; `owed` is the
peer whose last connection the listen loop removed and whose departure it has yet to report. The loop
takes no message before it has. -/
structure Departures where
  connections : PeerId → List Conn
  owed : Option PeerId
  emptied : PeerId → Nat
  reported : PeerId → Nat

inductive PeerStep where
  /-- `add_connection` and `on_reconnect_success` up to the hand-off to the manager. -/
  | registerConnection (conn : Conn)
  /-- `disconnect`, and the roll-back after a failed hand-off: neither looks whether the connection was
  the last. -/
  | disconnect (conn : Conn)
  | disconnectFromPeer (peer : PeerId)
  | disconnectAll
  /-- The listen loop takes a closure event or a dispatch error. -/
  | listen (conn : Conn)
  /-- The listen loop calls the hook. -/
  | onPeerDisconnect

namespace Departures

def start : Departures := ⟨fun _ => [], none, fun _ => 0, fun _ => 0⟩

section

variable (state : Departures)

def setPeer (peer : PeerId) (conns : List Conn) : Departures :=
  { state with connections := Function.update state.connections peer conns }

def leave (peer : PeerId) : Departures :=
  { state.setPeer peer [] with emptied := Function.update state.emptied peer (state.emptied peer + 1) }

/-- `remove_connection`, and whether it was the last connection of the peer. -/
def removeConnection (conn : Conn) : Departures × Bool :=
  match removeItem (state.connections conn.peerId) conn with
  | .removed rest => (state.setPeer conn.peerId rest, false)
  | .wasLast => (state.leave conn.peerId, true)
  | .notFound => (state, false)

def step : PeerStep → Departures
  | .registerConnection conn =>
    if conn ∈ state.connections conn.peerId then state
    else state.setPeer conn.peerId (state.connections conn.peerId ++ [conn])
  | .disconnect conn => (state.removeConnection conn).1
  | .disconnectFromPeer peer => if state.connections peer = [] then state else state.leave peer
  | .disconnectAll =>
    { state with
      connections := fun _ => []
      emptied := fun peer => state.emptied peer + if state.connections peer = [] then 0 else 1 }
  | .listen conn =>
    match state.owed with
    | some _ => state
    | none =>
      let (after, last) := state.removeConnection conn
      if last then { after with owed := some conn.peerId } else after
  | .onPeerDisconnect =>
    match state.owed with
    | some peer =>
      { state with
        owed := none
        reported := Function.update state.reported peer (state.reported peer + 1) }
    | none => state

/-- The reports of a peer's departure that the listen loop has yet to make. -/
def due (owed : Option PeerId) (peer : PeerId) : Nat := if owed = some peer then 1 else 0

/-- **Every departure was reported once**, or the listen loop is about to report it. -/
def Reported : Prop :=
  ∀ peer, state.emptied peer = state.reported peer + due state.owed peer

/-- **No one but the listen loop removes the last connection of a peer.** -/
def ByLoop : PeerStep → Prop
  | .disconnect conn => state.connections conn.peerId ≠ [conn]
  | .disconnectFromPeer peer => state.connections peer = []
  | .disconnectAll => ∀ peer, state.connections peer = []
  | _ => True

theorem removeConnection_cases (conn : Conn) : (state.connections conn.peerId = [conn] ∧
        state.removeConnection conn = (state.leave conn.peerId, true)) ∨
      (state.connections conn.peerId ≠ [conn] ∧
        ∃ conns, state.removeConnection conn = ({ state with connections := conns }, false)) := by
  obtain ⟨rest, result, -, -, more⟩ | ⟨result, only⟩ | ⟨result, absent⟩ :=
    removeItem_cases (state.connections conn.peerId) conn
  · exact .inr ⟨more, Function.update state.connections conn.peerId rest, by
      simp only [removeConnection, result, setPeer]⟩
  · exact .inl ⟨only, by simp only [removeConnection, result]⟩
  · refine .inr ⟨fun only => absent (by simp [only]), state.connections, ?_⟩
    simp only [removeConnection, result]

end

section

variable {state : Departures} (reported : state.Reported)

include reported

theorem Reported.not_leave (peer : PeerId) : ¬ (state.leave peer).Reported := by
  intro after
  have now := reported peer
  have later := after peer
  simp only [leave, setPeer, update_self] at later
  omega

theorem Reported.removed {conn : Conn}
    (others : state.connections conn.peerId ≠ [conn]) : (state.removeConnection conn).1.Reported := by
  obtain ⟨only, -⟩ | ⟨-, conns, result⟩ := state.removeConnection_cases conn
  · exact absurd only others
  · rw [result]
    exact reported

theorem Reported.not_removed {conn : Conn} (only : ¬ state.connections conn.peerId ≠ [conn]) :
    ¬ (state.removeConnection conn).1.Reported := by
  obtain ⟨-, result⟩ | ⟨others, -⟩ := state.removeConnection_cases conn
  · rw [result]
    exact reported.not_leave conn.peerId
  · exact absurd others only

theorem Reported.listen (conn : Conn) : (state.step (.listen conn)).Reported := by
  simp only [Departures.step]
  split
  · exact reported
  · rename_i free
    obtain ⟨-, result⟩ | ⟨-, conns, result⟩ := state.removeConnection_cases conn
    · intro peer
      have now := reported peer
      rw [free] at now
      by_cases same : peer = conn.peerId
      · subst same
        simpa [result, leave, setPeer, due] using now
      · simpa [result, leave, setPeer, due, same, Ne.symm same] using now
    · rw [result]
      exact reported

theorem Reported.onPeerDisconnect : (state.step .onPeerDisconnect).Reported := by
  simp only [Departures.step]
  split
  · rename_i owed waiting
    intro peer
    have now := reported peer
    rw [waiting] at now
    by_cases same : peer = owed
    · subst same
      simpa [due] using now
    · simpa [due, same, Ne.symm same] using now
  · exact reported

theorem Reported.step (turn : PeerStep)
    (byLoop : state.ByLoop turn) : (state.step turn).Reported := by
  cases turn with
  | registerConnection conn =>
    simp only [Departures.step]
    split <;> exact reported
  | disconnect conn => exact reported.removed byLoop
  | disconnectFromPeer peer =>
    simp only [Departures.step, if_pos (show state.connections peer = [] from byLoop)]
    exact reported
  | disconnectAll =>
    intro peer
    have none : state.connections peer = [] := byLoop peer
    simpa [Departures.step, none] using reported peer
  | listen conn => exact reported.listen conn
  | onPeerDisconnect => exact reported.onPeerDisconnect

theorem Reported.not_step (turn : PeerStep)
    (other : ¬ state.ByLoop turn) : ¬ (state.step turn).Reported := by
  cases turn with
  | disconnect conn => exact reported.not_removed other
  | disconnectFromPeer peer =>
    simp only [Departures.step, if_neg (show ¬ state.connections peer = [] from other)]
    exact reported.not_leave peer
  | disconnectAll =>
    intro after
    obtain ⟨peer, present⟩ := not_forall.mp other
    have now := reported peer
    have later := after peer
    simp only [Departures.step, if_neg present] at later
    omega
  | registerConnection conn => exact absurd trivial other
  | listen conn => exact absurd trivial other
  | onPeerDisconnect => exact absurd trivial other

end

end Departures

end Subduction
