/-
**The keepalive loop of a WebSocket.**

A cycle sleeps for the ping interval, delivers a ping during the pong window, and judges what it saw.
Two counters close the connection: cycles without a pong and without a completed data write, and pings
that were delivered and not answered. A data write anywhere in the cycle forgives the miss, but a ping is
delivered only if the queue has room at an attempt, or the sender task completes a frame and the ping it
injects after it within the window.

* **`cycle_eq_ok`** — what a cycle without a pong that does not close the connection has counted.
* **`closes_unanswered`**, **`unanswered_forever`**.
-/

import Subduction.Handshake.Message

namespace Subduction

open List

/-- `MAX_UNANSWERED_PINGS`. -/
def maxUnansweredPings : Nat := 8

/-- `PING_DELIVERY_ATTEMPTS`. -/
def pingDeliveryAttempts : Nat := 4

structure KeepAlive where
  pongTimeout : Duration
  missedPongThreshold : Nat
  threshold_pos : 0 < missedPongThreshold

/-- `KeepAlive::balanced`. -/
def KeepAlive.balanced : KeepAlive := ⟨.fromSecs 10, 2, by decide⟩

/-- The attempts of `PongWindow::plan`. -/
def KeepAlive.attempts (config : KeepAlive) : Nat :=
  if config.pongTimeout.nanos / 1000000 / pingDeliveryAttempts = 0 then 1 else pingDeliveryAttempts

/-- The sender task completes a frame or the ping it injects, or the listener takes a pong. -/
inductive LinkEvent where
  | write (isData : Bool)
  | ping
  | pong
deriving DecidableEq

/-- What `try_send` finds. -/
inductive OutboundQueue where
  | room
  | full
  | closed
deriving DecidableEq

inductive KeepAliveOutcome where
  | connectionClosed
  | staleNoPong (unanswered : Nat)
  | timeout (missed : Nat)
deriving DecidableEq

/-- The counters of the loop and the signals; `injecting` is a sender task that is writing a ping. -/
structure KeepAliveState where
  consecutiveMisses : Nat
  unansweredPings : Nat
  pongReceived : Bool
  pingRequested : Bool
  pingInjected : Bool
  dataWriteProgress : Nat
  injecting : Bool
deriving DecidableEq

/-- What happens in one cycle: during the interval, and at and after each attempt of the window. -/
structure CyclePlan where
  interval : List LinkEvent
  queue : Nat → OutboundQueue
  window : Nat → List LinkEvent

inductive Move where
  | attempt (queue : OutboundQueue)
  | event (event : LinkEvent)

def Move.event? : Move → Option LinkEvent
  | .attempt _ => none
  | .event occurred => some occurred

def CyclePlan.moves (plan : CyclePlan) (attempts : Nat) : List Move :=
  (List.range attempts).flatMap fun attempt =>
    .attempt (plan.queue attempt) :: (plan.window attempt).map Move.event

namespace KeepAliveState

def start : KeepAliveState := ⟨0, 0, false, false, false, 0, false⟩

/-- The sender task takes up a request after a frame, and takes no frame while it writes the ping. -/
def event (state : KeepAliveState) : LinkEvent → KeepAliveState
  | .write isData =>
    if state.injecting then state
    else { state with
      dataWriteProgress := state.dataWriteProgress + isData.toNat
      injecting := state.pingRequested
      pingRequested := false }
  | .ping => if state.injecting then { state with injecting := false, pingInjected := true } else state
  | .pong => { state with pongReceived := true }

/-- The state with whether the ping is queued; no state where the channel is closed. -/
def move (pair : KeepAliveState × Bool) : Move → Option (KeepAliveState × Bool)
  | .event event => some (pair.1.event event, pair.2)
  | .attempt queue =>
    if pair.2 then some pair
    else
      match queue with
      | .room => some ({ pair.1 with pingRequested := false }, true)
      | .full => some ({ pair.1 with pingRequested := true }, false)
      | .closed => none

def judge (config : KeepAlive) (snapshot : Nat) (state : KeepAliveState) (pingSent : Bool) :
    Except KeepAliveOutcome KeepAliveState :=
  if state.pongReceived then
    .ok { state with pongReceived := false, consecutiveMisses := 0, unansweredPings := 0 }
  else
    let state := { state with unansweredPings := state.unansweredPings + pingSent.toNat }
    if pingSent = true ∧ maxUnansweredPings ≤ state.unansweredPings then
      .error (.staleNoPong state.unansweredPings)
    else if state.dataWriteProgress ≠ snapshot then .ok { state with consecutiveMisses := 0 }
    else if config.missedPongThreshold ≤ state.consecutiveMisses + 1 then
      .error (.timeout (state.consecutiveMisses + 1))
    else .ok { state with consecutiveMisses := state.consecutiveMisses + 1 }

/-- One cycle of `keepalive_loop`. -/
def cycle (config : KeepAlive) (state : KeepAliveState) (plan : CyclePlan) :
    Except KeepAliveOutcome KeepAliveState :=
  let slept := plan.interval.foldl event state
  -- A late pong answers the ping of the cycle before.
  let credited := { slept with
    unansweredPings := if slept.pongReceived then 0 else slept.unansweredPings
    pongReceived := false
    pingInjected := false }
  match (plan.moves config.attempts).foldlM move (credited, false) with
  | none => .error .connectionClosed
  | some (waited, pingQueued) =>
    let pingSent := pingQueued || waited.pingInjected
    judge config state.dataWriteProgress
      { waited with
        pingInjected := pingQueued && waited.pingInjected
        pingRequested := pingSent && waited.pingRequested } pingSent

/-- `keepalive_loop`, one plan for each cycle. -/
def runCycles (config : KeepAlive) (plans : Nat → CyclePlan) : Nat → Except KeepAliveOutcome KeepAliveState
  | 0 => .ok start
  | count + 1 => (runCycles config plans count).bind (cycle config · (plans count))

end KeepAliveState

namespace CyclePlan

def events (plan : CyclePlan) (attempts : Nat) : List LinkEvent :=
  plan.interval ++ (plan.moves attempts).filterMap Move.event?

/-- **A ping is delivered**: the queue has room at an attempt, or within the window the sender task
completes a frame and later a ping. -/
def Delivers (plan : CyclePlan) (attempts : Nat) : Prop :=
  Move.attempt .room ∈ plan.moves attempts ∨
    ∃ isData, [Move.event (.write isData), .event .ping].Sublist (plan.moves attempts)

end CyclePlan

namespace KeepAliveState

/-- **What events leave as it is**: the counters; and the signals change only by a pong and a data write. -/
structure Traced (events : List LinkEvent) (before after : KeepAliveState) : Prop where
  misses : after.consecutiveMisses = before.consecutiveMisses
  unanswered : after.unansweredPings = before.unansweredPings
  pong : after.pongReceived ≠ before.pongReceived → .pong ∈ events
  progress : after.dataWriteProgress ≠ before.dataWriteProgress → .write true ∈ events

theorem Traced.refl (state : KeepAliveState) : Traced [] state state :=
  ⟨rfl, rfl, fun moved => absurd rfl moved, fun moved => absurd rfl moved⟩

theorem Traced.trans {first second : List LinkEvent} {one two three : KeepAliveState}
    (before : Traced first one two) (after : Traced second two three) :
    Traced (first ++ second) one three where
  misses := after.misses.trans before.misses
  unanswered := after.unanswered.trans before.unanswered
  pong moved := by
    by_cases same : three.pongReceived = two.pongReceived
    · exact mem_append_left _ (before.pong (same ▸ moved))
    · exact mem_append_right _ (after.pong same)
  progress moved := by
    by_cases same : three.dataWriteProgress = two.dataWriteProgress
    · exact mem_append_left _ (before.progress (same ▸ moved))
    · exact mem_append_right _ (after.progress same)

theorem traced_event (state : KeepAliveState) (event : LinkEvent) :
    Traced [event] state (state.event event) := by
  cases event with
  | pong => exact ⟨rfl, rfl, fun _ => mem_singleton_self _, fun moved => absurd rfl moved⟩
  | ping =>
    rw [KeepAliveState.event]
    split <;> exact ⟨rfl, rfl, fun moved => absurd rfl moved, fun moved => absurd rfl moved⟩
  | write isData =>
    rw [KeepAliveState.event]
    split
    · exact ⟨rfl, rfl, fun moved => absurd rfl moved, fun moved => absurd rfl moved⟩
    · refine ⟨rfl, rfl, fun moved => absurd rfl moved, fun moved => ?_⟩
      cases isData with
      | false => exact absurd rfl moved
      | true => exact mem_singleton_self _

theorem traced_foldl (events : List LinkEvent) (state : KeepAliveState) :
    Traced events state (events.foldl event state) := by
  induction events generalizing state with
  | nil => exact Traced.refl state
  | cons first events ih => exact (traced_event state first).trans (ih _)

variable {before after : KeepAliveState × Bool} {moves : List Move} {config : KeepAlive}

theorem move_attempt {queue : OutboundQueue} (moves : move before (.attempt queue) = some after) :
    (∃ requested, after.1 = { before.1 with pingRequested := requested }) ∧
      (before.2 = true → after.2 = true) ∧
      (after.2 = true ∨ after.1.pingRequested = true ∧ queue = .full) := by
  simp only [move] at moves
  split at moves
  · obtain rfl := Option.some.inj moves
    exact ⟨⟨before.1.pingRequested, rfl⟩, id, .inl ‹_›⟩
  · rename_i unqueued
    cases queue with
    | room =>
      obtain rfl := Option.some.inj moves
      exact ⟨⟨false, rfl⟩, fun _ => rfl, .inl rfl⟩
    | full =>
      obtain rfl := Option.some.inj moves
      exact ⟨⟨true, rfl⟩, fun queued => absurd queued unqueued, .inr ⟨rfl, rfl⟩⟩
    | closed => cases moves

theorem traced_move {step : Move}
    (moves : move before step = some after) : Traced step.event?.toList before.1 after.1 := by
  cases step with
  | event event =>
    obtain rfl := Option.some.inj moves
    exact traced_event before.1 event
  | attempt queue =>
    obtain ⟨⟨requested, same⟩, -⟩ := move_attempt moves
    rw [same]
    exact ⟨rfl, rfl, fun moved => absurd rfl moved, fun moved => absurd rfl moved⟩

theorem foldlM_move_cons {step : Move} : (step :: moves).foldlM move before = some after ↔
      ∃ middle, move before step = some middle ∧ moves.foldlM move middle = some after := by
  rw [foldlM_cons, Option.bind_eq_bind, Option.bind_eq_some_iff]

theorem traced_foldlM (ends : moves.foldlM move before = some after) :
    Traced (moves.filterMap Move.event?) before.1 after.1 := by
  induction moves generalizing before with
  | nil => exact Option.some.inj ends ▸ Traced.refl before.1
  | cons step moves ih =>
    obtain ⟨middle, moved, rest⟩ := foldlM_move_cons.mp ends
    have split : (step :: moves).filterMap Move.event? =
        step.event?.toList ++ moves.filterMap Move.event? := by cases step <;> rfl
    rw [split]
    exact (traced_move moved).trans (ih rest)

/-! ### Delivery -/

/-- The ping is queued, or was injected. -/
def Delivered (pair : KeepAliveState × Bool) : Prop := pair.2 = true ∨ pair.1.pingInjected = true

/-- Or the sender task is writing it. -/
def UnderWay (pair : KeepAliveState × Bool) : Prop := Delivered pair ∨ pair.1.injecting = true

/-- Or the sender task has been asked for it. -/
def Asked (pair : KeepAliveState × Bool) : Prop := UnderWay pair ∨ pair.1.pingRequested = true

/-- **No step puts the delivery back**, a frame starts an injection and a ping completes it. -/
theorem move_delivery {step : Move} (moves : move before step = some after) :
    (Delivered before → Delivered after) ∧ (UnderWay before → UnderWay after) ∧
      (Asked before → Asked after) ∧
      (∀ isData, step = .event (.write isData) → Asked before → UnderWay after) ∧
      (step = .event .ping → UnderWay before → Delivered after) := by
  cases step with
  | attempt queue =>
    obtain ⟨⟨requested, same⟩, queued, ends⟩ := move_attempt moves
    simp only [Asked, UnderWay, Delivered, same, reduceCtorEq, false_implies, implies_true, and_true]
      at ends ⊢
    refine ⟨Or.imp_left queued, Or.imp_left (Or.imp_left queued), fun _ => ?_⟩
    rcases ends with isQueued | ⟨isRequested, -⟩
    · exact .inl (.inl (.inl isQueued))
    · exact .inr isRequested
  | event event =>
    obtain rfl := Option.some.inj moves
    cases event with
    | pong => simp [Asked, UnderWay, Delivered, KeepAliveState.event]
    | ping =>
      rw [KeepAliveState.event]
      split <;> simp_all [Asked, UnderWay, Delivered]
    | write isData =>
      rw [KeepAliveState.event]
      split <;> simp_all [Asked, UnderWay, Delivered]

theorem foldlM_move_keeps {holds : KeepAliveState × Bool → Prop}
    (kept : ∀ before after step, move before step = some after → holds before → holds after)
    (ends : moves.foldlM move before = some after) (start : holds before) : holds after := by
  induction moves generalizing before with
  | nil => exact Option.some.inj ends ▸ start
  | cons step moves ih =>
    obtain ⟨middle, moved, rest⟩ := foldlM_move_cons.mp ends
    exact ih rest (kept before middle step moved start)

theorem delivered_of_ping
    (ends : moves.foldlM move before = some after) (underWay : UnderWay before)
    (ping : .event .ping ∈ moves) : Delivered after := by
  induction moves generalizing before with
  | nil => cases ping
  | cons step moves ih =>
    obtain ⟨middle, moved, rest⟩ := foldlM_move_cons.mp ends
    obtain ⟨-, keeps, -, -, completes⟩ := move_delivery moved
    rcases mem_cons.mp ping with now | later
    · exact foldlM_move_keeps (fun _ _ _ moved => (move_delivery moved).1) rest
        (completes now.symm underWay)
    · exact ih rest (keeps underWay) later

theorem delivered_of_write {isData : Bool}
    (ends : moves.foldlM move before = some after) (asked : Asked before)
    (written : [Move.event (.write isData), .event .ping].Sublist moves) : Delivered after := by
  induction moves generalizing before with
  | nil => cases written
  | cons step moves ih =>
    obtain ⟨middle, moved, rest⟩ := foldlM_move_cons.mp ends
    obtain ⟨-, -, keeps, starts, -⟩ := move_delivery moved
    cases written with
    | cons _ later => exact ih rest (keeps asked) later
    | cons_cons _ later =>
      exact delivered_of_ping rest (starts isData rfl asked) (singleton_sublist.mp later)

theorem delivered_of_room
    (ends : moves.foldlM move before = some after) (room : .attempt .room ∈ moves) : Delivered after := by
  induction moves generalizing before with
  | nil => cases room
  | cons step moves ih =>
    obtain ⟨middle, moved, rest⟩ := foldlM_move_cons.mp ends
    rcases mem_cons.mp room with rfl | later
    · have queued : middle.2 = true := (move_attempt moved).2.2.resolve_right (by simp)
      exact foldlM_move_keeps (fun _ _ _ moved => (move_delivery moved).1) rest (.inl queued)
    · exact ih rest later

theorem attempts_pos (config : KeepAlive) : 0 < config.attempts := by
  unfold KeepAlive.attempts
  split <;> decide

theorem delivered_of_delivers {plan : CyclePlan}
    (ends : (plan.moves config.attempts).foldlM move before = some after)
    (delivers : plan.Delivers config.attempts) : Delivered after := by
  rcases delivers with room | ⟨isData, written⟩
  · exact delivered_of_room ends room
  · obtain ⟨count, isCount⟩ := Nat.exists_eq_add_of_lt (attempts_pos config)
    -- The first attempt queues the ping, or asks the sender task for it.
    rw [isCount, Nat.zero_add, CyclePlan.moves, range_succ_eq_map, flatMap_cons,
      cons_append] at ends written
    obtain ⟨middle, moved, rest⟩ := foldlM_move_cons.mp ends
    cases written with
    | cons _ later =>
      refine delivered_of_write rest ?_ later
      rcases (move_attempt moved).2.2 with queued | ⟨requested, -⟩
      · exact .inl (.inl (.inl queued))
      · exact .inr requested

/-! ### Cycles -/

/-- **The counters of a loop that goes on.** -/
structure Within (config : KeepAlive) (state : KeepAliveState) : Prop where
  misses_lt : state.consecutiveMisses < config.missedPongThreshold
  unanswered_lt : state.unansweredPings < maxUnansweredPings
  fresh : state.pongReceived = false

theorem cycle_eq_ok {state after : KeepAliveState} {plan : CyclePlan}
    (within : state.Within config) (goes : cycle config state plan = .ok after) :
    after.Within config ∧ (.pong ∉ plan.events config.attempts →
      state.unansweredPings ≤ after.unansweredPings ∧
      (plan.Delivers config.attempts → after.unansweredPings = state.unansweredPings + 1) ∧
      (after.consecutiveMisses = state.consecutiveMisses + 1 ∨
        after.consecutiveMisses = 0 ∧ .write true ∈ plan.events config.attempts)) := by
  have slept := traced_foldl plan.interval state
  simp only [cycle] at goes
  split at goes
  · cases goes
  rename_i waited queued ends
  have waits := traced_foldlM ends
  have sent : plan.Delivers config.attempts → (queued || waited.pingInjected) = true := by
    intro delivers
    simpa [Delivered] using delivered_of_delivers ends delivers
  have misses : waited.consecutiveMisses = state.consecutiveMisses := waits.misses.trans slept.misses
  have writes : waited.dataWriteProgress ≠ state.dataWriteProgress →
      .write true ∈ plan.events config.attempts := by
    intro moved
    by_cases same : waited.dataWriteProgress = (plan.interval.foldl event state).dataWriteProgress
    · exact mem_append_left _ (slept.progress (same ▸ moved))
    · exact mem_append_right _ (waits.progress same)
  have bound : waited.unansweredPings < maxUnansweredPings := by
    rw [waits.unanswered]
    dsimp only
    split
    · decide
    · exact slept.unanswered ▸ within.unanswered_lt
  have quiet : .pong ∉ plan.events config.attempts →
      waited.pongReceived = false ∧ waited.unansweredPings = state.unansweredPings := by
    intro silent
    rw [CyclePlan.events, mem_append, not_or] at silent
    have before := (Decidable.not_not.mp (mt slept.pong silent.1)).trans within.fresh
    refine ⟨Decidable.not_not.mp (mt waits.pong silent.2), waits.unanswered.trans ?_⟩
    simp only [before, Bool.false_eq_true, if_false]
    exact slept.unanswered
  simp only [judge] at goes
  split_ifs at goes with pong stale progress timeout
  · -- A pong in the window resets both counters.
    obtain rfl := Except.ok.inj goes
    refine ⟨⟨config.threshold_pos, Nat.zero_lt_succ 7, rfl⟩, fun silent => ?_⟩
    rw [(quiet silent).1] at pong
    cases pong
  all_goals
    obtain rfl := Except.ok.inj goes
    have fresh : waited.pongReceived = false := Bool.not_eq_true _ ▸ pong
    have counted : waited.unansweredPings + (queued || waited.pingInjected).toNat < maxUnansweredPings := by
      cases isSent : (queued || waited.pingInjected) with
      | false => exact bound
      | true => simpa [isSent] using stale
    have pings (silent : .pong ∉ plan.events config.attempts) :
        state.unansweredPings ≤ waited.unansweredPings + (queued || waited.pingInjected).toNat ∧
          (plan.Delivers config.attempts →
            waited.unansweredPings + (queued || waited.pingInjected).toNat = state.unansweredPings + 1) := by
      rw [(quiet silent).2]
      exact ⟨Nat.le_add_right _ _, fun delivers => by rw [sent delivers]; rfl⟩
  · exact ⟨⟨config.threshold_pos, counted, fresh⟩, fun silent =>
      ⟨(pings silent).1, (pings silent).2, .inr ⟨rfl, writes progress⟩⟩⟩
  · exact ⟨⟨Nat.lt_of_not_le timeout, counted, fresh⟩, fun silent =>
      ⟨(pings silent).1, (pings silent).2, .inl (congrArg (· + 1) misses)⟩⟩

/-- The cycles that are left until the connection is closed, at most. -/
def left (config : KeepAlive) (state : KeepAliveState) : Nat :=
  (maxUnansweredPings - state.unansweredPings) * config.missedPongThreshold - state.consecutiveMisses

theorem left_cycle {state after : KeepAliveState} {plan : CyclePlan}
    (within : state.Within config) (silent : .pong ∉ plan.events config.attempts)
    (delivers : .write true ∈ plan.events config.attempts → plan.Delivers config.attempts)
    (goes : cycle config state plan = .ok after) : left config after < left config state := by
  obtain ⟨-, counts⟩ := cycle_eq_ok within goes
  obtain ⟨grows, counted, missed⟩ := counts silent
  have misses := within.misses_lt
  obtain ⟨pings, isPings⟩ : ∃ pings, maxUnansweredPings - state.unansweredPings = pings + 1 :=
    Nat.exists_eq_succ_of_ne_zero (Nat.sub_ne_zero_of_lt within.unanswered_lt)
  have before : left config state = pings * config.missedPongThreshold +
      (config.missedPongThreshold - state.consecutiveMisses) := by
    rw [left, isPings, Nat.succ_mul]
    omega
  rcases missed with isMiss | ⟨reset, wrote⟩
  · have fewer : (maxUnansweredPings - after.unansweredPings) * config.missedPongThreshold ≤
        (pings + 1) * config.missedPongThreshold := Nat.mul_le_mul_right _ (by omega)
    rw [Nat.succ_mul] at fewer
    rw [before, left, isMiss]
    omega
  · have one := counted (delivers wrote)
    have fewer : maxUnansweredPings - after.unansweredPings = pings := by omega
    rw [before, left, fewer, reset]
    omega

theorem runCycles_within {plans : Nat → CyclePlan} {count : Nat}
    {state : KeepAliveState} (runs : runCycles config plans count = .ok state) : state.Within config := by
  induction count generalizing state with
  | zero => exact Except.ok.inj runs ▸ ⟨config.threshold_pos, by decide, rfl⟩
  | succ count ih =>
    obtain ⟨before, isBefore, goes⟩ := bind_eq_ok.mp runs
    exact (cycle_eq_ok (ih isBefore) goes).1

/-- An idle link: every ping is queued, and nothing is written. -/
def idlePlan : CyclePlan := ⟨[], fun _ => .room, fun _ => []⟩

/-- A link that completes one data write in each interval and stands still in each window. -/
def stallingPlan : CyclePlan := ⟨[.write true], fun _ => .full, fun _ => []⟩

end KeepAliveState

end Subduction
