/-
**The HTTP long-poll transport.**

A client sends each message by a request of its own, one after the other, and fetches the messages of the
server by polling. Each message is taken from its queue before the request or the response that carries
it is known to have arrived, and neither loop puts it back.

Main result: `inOrder_of_harmless`.
-/

import Subduction.Lib.Interleave

namespace Subduction

/-- `OUTBOUND_CHANNEL_CAPACITY`. -/
def outboundChannelCapacity : Nat := 1024

/-- `INBOUND_CHANNEL_CAPACITY`. -/
def inboundChannelCapacity : Nat := 128

/-- `MAX_CONSECUTIVE_POLL_FAILURES`. -/
def maxConsecutivePollFailures : Nat := 5

/-! ### One side -/

/-- **One side of a connection**: its queues, and a record of what `send_bytes` accepted and
`recv_bytes` returned. -/
structure HttpLongPollTransport (α : Type) where
  outbound : List α
  inbound : List α
  closed : Bool
  accepted : List α
  returned : List α
deriving DecidableEq

namespace HttpLongPollTransport

variable {α : Type}

def new : HttpLongPollTransport α := ⟨[], [], false, [], []⟩

section

variable (side : HttpLongPollTransport α)

/-- `send_bytes`; it waits while the queue is full. -/
def sendBytes (bytes : α) : HttpLongPollTransport α :=
  if side.closed = false ∧ side.outbound.length < outboundChannelCapacity then
    { side with outbound := side.outbound ++ [bytes], accepted := side.accepted ++ [bytes] }
  else side

/-- `recv_bytes`; a closed queue is drained. -/
def recvBytes : HttpLongPollTransport α :=
  match side.inbound with
  | [] => side
  | bytes :: rest => { side with inbound := rest, returned := side.returned ++ [bytes] }

/-- `push_inbound`; it waits while the queue is full. -/
def pushInbound (bytes : α) : Option (HttpLongPollTransport α) :=
  if side.closed = false ∧ side.inbound.length < inboundChannelCapacity then
    some { side with inbound := side.inbound ++ [bytes] }
  else none

/-- `pull_outbound`; a closed queue is drained. -/
def pullOutbound : Option (α × HttpLongPollTransport α) :=
  match side.outbound with
  | [] => none
  | bytes :: rest => some (bytes, { side with outbound := rest })

/-- `close`. -/
def close : HttpLongPollTransport α := { side with closed := true }

end

/-- **What the sender accepted is with the receiver, under way, or still to be sent**, in this order. -/
def Carried (sender receiver : HttpLongPollTransport α) (underWay : List α) : Prop :=
  sender.accepted = receiver.returned ++ (receiver.inbound ++ (underWay ++ sender.outbound))

section Carried

variable {sender receiver : HttpLongPollTransport α} {underWay : List α}

theorem Carried.isPrefix (carried : Carried sender receiver underWay) :
    receiver.returned <+: sender.accepted :=
  ⟨_, carried.symm⟩

theorem Carried.sendBytes (carried : Carried sender receiver underWay) (bytes : α) :
    Carried (sender.sendBytes bytes) receiver underWay := by
  unfold HttpLongPollTransport.sendBytes
  split
  · show sender.accepted ++ [bytes] = _
    rw [carried]
    simp only [List.append_assoc]
  · exact carried

theorem Carried.recvBytes (carried : Carried sender receiver underWay) :
    Carried sender receiver.recvBytes underWay := by
  unfold HttpLongPollTransport.recvBytes
  split
  · exact carried
  · rename_i bytes rest isInbound
    show sender.accepted = (receiver.returned ++ [bytes]) ++ (rest ++ _)
    rw [carried, isInbound]
    simp

theorem Carried.pullOutbound (carried : Carried sender receiver []) {bytes : α}
    {after : HttpLongPollTransport α} (pulled : sender.pullOutbound = some (bytes, after)) :
    Carried after receiver [bytes] := by
  unfold HttpLongPollTransport.pullOutbound at pulled
  split at pulled
  · cases pulled
  · rename_i first rest isOutbound
    obtain ⟨rfl, rfl⟩ := Prod.mk.inj (Option.some.inj pulled)
    show sender.accepted = _
    rw [carried, isOutbound]
    rfl

theorem Carried.pushInbound {bytes : α} (carried : Carried sender receiver [bytes])
    {after : HttpLongPollTransport α} (pushed : receiver.pushInbound bytes = some after) :
    Carried sender after [] := by
  unfold HttpLongPollTransport.pushInbound at pushed
  split at pushed
  · rw [← Option.some.inj pushed]
    show sender.accepted = receiver.returned ++ ((receiver.inbound ++ [bytes]) ++ _)
    rw [carried]
    simp
  · cases pushed

theorem Carried.congr (carried : Carried sender receiver underWay)
    {sender' receiver' : HttpLongPollTransport α} (accepted : sender'.accepted = sender.accepted)
    (outbound : sender'.outbound = sender.outbound) (returned : receiver'.returned = receiver.returned)
    (inbound : receiver'.inbound = receiver.inbound) : Carried sender' receiver' underWay := by
  unfold Carried
  rw [accepted, outbound, returned, inbound]
  exact carried

end Carried

section Frame

variable (side : HttpLongPollTransport α) {after : HttpLongPollTransport α} (bytes : α)

theorem sendBytes_frame : (side.sendBytes bytes).inbound = side.inbound ∧
    (side.sendBytes bytes).returned = side.returned := by
  unfold sendBytes
  split
  · exact ⟨rfl, rfl⟩
  · exact ⟨rfl, rfl⟩

theorem recvBytes_frame : side.recvBytes.outbound = side.outbound ∧
    side.recvBytes.accepted = side.accepted := by
  unfold recvBytes
  split
  · exact ⟨rfl, rfl⟩
  · exact ⟨rfl, rfl⟩

variable {side bytes}

theorem pushInbound_frame (pushed : side.pushInbound bytes = some after) :
    after.outbound = side.outbound ∧ after.accepted = side.accepted := by
  unfold pushInbound at pushed
  split at pushed
  · rw [← Option.some.inj pushed]
    exact ⟨rfl, rfl⟩
  · cases pushed

theorem pullOutbound_frame (pulled : side.pullOutbound = some (bytes, after)) :
    after.inbound = side.inbound ∧ after.returned = side.returned := by
  unfold pullOutbound at pulled
  split at pulled
  · cases pulled
  · rw [← (Prod.mk.inj (Option.some.inj pulled)).2]
    exact ⟨rfl, rfl⟩

end Frame

end HttpLongPollTransport

/-! ### The connection -/

/-- What has become of a `POST /lp/send`: it may be on its way or at its handler, the server may have
taken the message and the response be on its way or not, or nothing may be left of it. -/
inductive SendFate where
  | onTheWay
  | answered
  | taken
  | lost
deriving DecidableEq

/-- What has become of a `POST /lp/recv`: it may be on its way or wait at its handler, a response with a
message, without one (204) or with the end of the session (410) may be on its way, or nothing may be
left of it, or only a message that was taken for it. -/
inductive PollFate (α : Type) where
  | waiting
  | message (bytes : α)
  | empty
  | gone
  | lost
  | messageLost (bytes : α)
deriving DecidableEq

/-- **A connection**: both sides, whether the loops of the client run, their exchanges, and the requests
that the client has given up but the server may still handle. -/
structure LongPoll (α : Type) where
  client : HttpLongPollTransport α
  server : HttpLongPollTransport α
  sending : Bool
  polling : Bool
  consecutiveFailures : Nat
  post : Option (α × SendFate)
  poll : Option (PollFate α)
  staleSends : List α
  stalePolls : Nat
deriving DecidableEq

/-- What can happen. An error status counts as an error of the exchange. -/
inductive LongPollEvent (α : Type) where
  | clientSend (bytes : α)
  | serverSend (bytes : α)
  | clientRecv
  | serverRecv
  | takeOutbound
  | handleSend
  | sendLost
  | sendOk
  | sendError
  | handleStaleSend (index : Nat)
  | staleSendLost (index : Nat)
  | startPoll
  | handleRecv
  | pollTimeout
  | sessionGone
  | pollLost
  | pollOk
  | pollError
  | handleStaleRecv
  | stalePollLost
  | clientClose
  | serverClose
  | stopSending
  | stopPolling
deriving DecidableEq

namespace LongPoll

variable {α : Type}

def new : LongPoll α := ⟨.new, .new, true, true, 0, none, none, [], 0⟩

section

variable (connection : LongPoll α)

/-- `send_loop` takes the next message and posts it. -/
def takeOutbound : LongPoll α :=
  if connection.sending = true then
    match connection.post, connection.client.pullOutbound with
    | none, some (bytes, client) => { connection with client := client, post := some (bytes, .onTheWay) }
    | _, _ => connection
  else connection

/-- `handle_send`. -/
def handleSend : LongPoll α :=
  match connection.post with
  | some (bytes, .onTheWay) =>
    match connection.server.pushInbound bytes with
    | some server => { connection with server := server, post := some (bytes, .answered) }
    | none => connection
  | _ => connection

/-- A `POST /lp/send` or its response is lost, or its handler fails. -/
def sendLost : LongPoll α :=
  match connection.post with
  | some (bytes, .onTheWay) => { connection with post := some (bytes, .lost) }
  | some (bytes, .answered) => { connection with post := some (bytes, .taken) }
  | _ => connection

/-- `send_loop` gets its response. -/
def sendOk : LongPoll α :=
  match connection.post with
  | some (_, .answered) => { connection with post := none }
  | _ => connection

/-- `send_loop` gets an error, and goes on with the next message. -/
def sendError : LongPoll α :=
  match connection.post with
  | some (bytes, .onTheWay) =>
    { connection with post := none, staleSends := connection.staleSends ++ [bytes] }
  | _ => { connection with post := none }

/-- `handle_send`, for a request that the client has given up. -/
def handleStaleSend (index : Nat) : LongPoll α :=
  match connection.staleSends[index]? with
  | some bytes =>
    match connection.server.pushInbound bytes with
    | some server =>
      { connection with server := server, staleSends := connection.staleSends.eraseIdx index }
    | none => connection
  | none => connection

/-- `poll_loop` polls. -/
def startPoll : LongPoll α :=
  if connection.polling = true then
    match connection.poll with
    | none => { connection with poll := some .waiting }
    | some _ => connection
  else connection

/-- `handle_recv` takes a message. -/
def handleRecv : LongPoll α :=
  match connection.poll, connection.server.pullOutbound with
  | some .waiting, some (bytes, server) =>
    { connection with server := server, poll := some (.message bytes) }
  | _, _ => connection

/-- `handle_recv` comes to its timeout. -/
def pollTimeout : LongPoll α :=
  match connection.poll with
  | some .waiting => { connection with poll := some .empty }
  | _ => connection

/-- `handle_recv` finds the queue closed. -/
def sessionGone : LongPoll α :=
  match connection.poll, connection.server.closed, connection.server.pullOutbound with
  | some .waiting, true, none => { connection with poll := some .gone }
  | _, _, _ => connection

/-- A `POST /lp/recv` or its response is lost, or its handler fails. -/
def pollLost : LongPoll α :=
  match connection.poll with
  | none => connection
  | some (.message bytes) | some (.messageLost bytes) =>
    { connection with poll := some (.messageLost bytes) }
  | some _ => { connection with poll := some .lost }

/-- `poll_loop` gets its response. -/
def pollOk : LongPoll α :=
  if connection.polling = true then
    match connection.poll with
    | some (.message bytes) =>
      match connection.client.pushInbound bytes with
      | some client => { connection with client := client, poll := none, consecutiveFailures := 0 }
      | none =>
        if connection.client.closed = true then
          { connection with client := connection.client.close, polling := false }
        else connection
    | some .empty => { connection with poll := none, consecutiveFailures := 0 }
    | some .gone =>
      { connection with client := connection.client.close, polling := false, poll := none }
    | _ => connection
  else connection

/-- `poll_loop` gets an error: it closes the connection, or polls again. -/
def pollError : LongPoll α :=
  if connection.polling = true then
    match connection.poll with
    | none => connection
    | some fate =>
      if maxConsecutivePollFailures ≤ connection.consecutiveFailures + 1 then
        { connection with client := connection.client.close, polling := false
                          consecutiveFailures := connection.consecutiveFailures + 1 }
      else
        { connection with poll := none
                          consecutiveFailures := connection.consecutiveFailures + 1
                          stalePolls := match fate with
                            | .waiting => connection.stalePolls + 1
                            | _ => connection.stalePolls }
  else connection

/-- `handle_recv`, for a poll that the client has given up: what it takes is lost. -/
def handleStaleRecv : LongPoll α :=
  match connection.stalePolls, connection.server.pullOutbound with
  | polls + 1, some (_, server) => { connection with server := server, stalePolls := polls }
  | _, _ => connection

/-- **One step.** -/
def step : LongPollEvent α → LongPoll α
  | .clientSend bytes => { connection with client := connection.client.sendBytes bytes }
  | .serverSend bytes => { connection with server := connection.server.sendBytes bytes }
  | .clientRecv => { connection with client := connection.client.recvBytes }
  | .serverRecv => { connection with server := connection.server.recvBytes }
  | .takeOutbound => connection.takeOutbound
  | .handleSend => connection.handleSend
  | .sendLost => connection.sendLost
  | .sendOk => connection.sendOk
  | .sendError => connection.sendError
  | .handleStaleSend index => connection.handleStaleSend index
  | .staleSendLost index =>
    { connection with staleSends := connection.staleSends.eraseIdx index }
  | .startPoll => connection.startPoll
  | .handleRecv => connection.handleRecv
  | .pollTimeout => connection.pollTimeout
  | .sessionGone => connection.sessionGone
  | .pollLost => connection.pollLost
  | .pollOk => connection.pollOk
  | .pollError => connection.pollError
  | .handleStaleRecv => connection.handleStaleRecv
  | .stalePollLost => { connection with stalePolls := connection.stalePolls - 1 }
  | .clientClose => { connection with client := connection.client.close }
  | .serverClose => { connection with server := connection.server.close }
  | .stopSending => { connection with sending := false }
  | .stopPolling => { connection with polling := false }

/-! ### When messages keep their order -/

/-- **Both sides got what the other one sent, in order**, and nothing else. -/
def InOrder : Prop :=
  connection.server.returned <+: connection.client.accepted ∧
    connection.client.returned <+: connection.server.accepted

end

instance [DecidableEq α] (connection : LongPoll α) : Decidable connection.InOrder :=
  inferInstanceAs (Decidable (_ ∧ _))

/-- The message that a post has taken from its queue and not brought to the server. -/
def posted : Option (α × SendFate) → List α
  | some (bytes, .onTheWay) | some (bytes, .lost) => [bytes]
  | _ => []

/-- The message that was taken for a poll. -/
def polled : Option (PollFate α) → List α
  | some (.message bytes) | some (.messageLost bytes) => [bytes]
  | _ => []

/-- **A harmless step.** An exchange may fail only if it has no message any more and can take none: the
server has taken what a post brings; nothing was taken for a poll, and its handler does not wait. A poll
may fail in any way if its failure closes the connection. -/
def Harmless (connection : LongPoll α) : LongPollEvent α → Prop
  | .sendError => posted connection.post = []
  | .pollError => maxConsecutivePollFailures ≤ connection.consecutiveFailures + 1 ∨
      (connection.poll ≠ some .waiting ∧ polled connection.poll = [])
  | _ => True

instance [DecidableEq α] (connection : LongPoll α) (event : LongPollEvent α) :
    Decidable (connection.Harmless event) := by
  cases event <;> unfold Harmless <;> infer_instance

/-- **Nothing is missing**, in both directions. -/
structure Complete (connection : LongPoll α) : Prop where
  upward : connection.client.Carried connection.server (posted connection.post)
  downward : connection.server.Carried connection.client (polled connection.poll)
  noStaleSends : connection.staleSends = []
  noStalePolls : connection.stalePolls = 0

theorem complete_new : (new : LongPoll α).Complete := ⟨rfl, rfl, rfl, rfl⟩

theorem Complete.inOrder {connection : LongPoll α} (complete : connection.Complete) :
    connection.InOrder :=
  ⟨complete.upward.isPrefix, complete.downward.isPrefix⟩

section Steps

variable {connection : LongPoll α} (complete : connection.Complete)

include complete

theorem Complete.clientSend (bytes : α) :
    Complete { connection with client := connection.client.sendBytes bytes } := by
  obtain ⟨inbound, returned⟩ := connection.client.sendBytes_frame bytes
  exact ⟨complete.upward.sendBytes bytes, complete.downward.congr rfl rfl returned inbound,
    complete.noStaleSends, complete.noStalePolls⟩

theorem Complete.serverSend (bytes : α) :
    Complete { connection with server := connection.server.sendBytes bytes } := by
  obtain ⟨inbound, returned⟩ := connection.server.sendBytes_frame bytes
  exact ⟨complete.upward.congr rfl rfl returned inbound, complete.downward.sendBytes bytes,
    complete.noStaleSends, complete.noStalePolls⟩

theorem Complete.clientRecv : Complete { connection with client := connection.client.recvBytes } := by
  obtain ⟨outbound, accepted⟩ := connection.client.recvBytes_frame
  exact ⟨complete.upward.congr accepted outbound rfl rfl, complete.downward.recvBytes,
    complete.noStaleSends, complete.noStalePolls⟩

theorem Complete.serverRecv : Complete { connection with server := connection.server.recvBytes } := by
  obtain ⟨outbound, accepted⟩ := connection.server.recvBytes_frame
  exact ⟨complete.upward.recvBytes, complete.downward.congr accepted outbound rfl rfl,
    complete.noStaleSends, complete.noStalePolls⟩

theorem Complete.refated (post : Option (α × SendFate))
    (same : posted post = posted connection.post) : Complete { connection with post := post } := by
  refine ⟨?_, complete.downward, complete.noStaleSends, complete.noStalePolls⟩
  show connection.client.Carried connection.server (posted post)
  rw [same]
  exact complete.upward

theorem Complete.repolled (poll : Option (PollFate α))
    (same : polled poll = polled connection.poll) : Complete { connection with poll := poll } := by
  refine ⟨complete.upward, ?_, complete.noStaleSends, complete.noStalePolls⟩
  show connection.server.Carried connection.client (polled poll)
  rw [same]
  exact complete.downward

theorem Complete.takeOutbound : connection.takeOutbound.Complete := by
  unfold LongPoll.takeOutbound
  split
  · split
    · rename_i bytes client isIdle isPulled
      have carried := complete.upward
      rw [isIdle] at carried
      obtain ⟨inbound, returned⟩ := HttpLongPollTransport.pullOutbound_frame isPulled
      exact ⟨carried.pullOutbound isPulled, complete.downward.congr rfl rfl returned inbound,
        complete.noStaleSends, complete.noStalePolls⟩
    · exact complete
  · exact complete

theorem Complete.handleSend : connection.handleSend.Complete := by
  unfold LongPoll.handleSend
  split
  · rename_i bytes isPost
    split
    · rename_i server isPushed
      have carried := complete.upward
      rw [isPost] at carried
      obtain ⟨outbound, accepted⟩ := HttpLongPollTransport.pushInbound_frame isPushed
      exact ⟨carried.pushInbound isPushed, complete.downward.congr accepted outbound rfl rfl,
        complete.noStaleSends, complete.noStalePolls⟩
    · exact complete
  · exact complete

theorem Complete.sendLost : connection.sendLost.Complete := by
  unfold LongPoll.sendLost
  split
  · rename_i isPost
    exact complete.refated _ (congrArg posted isPost).symm
  · rename_i isPost
    exact complete.refated _ (congrArg posted isPost).symm
  · exact complete

theorem Complete.sendOk : connection.sendOk.Complete := by
  unfold LongPoll.sendOk
  split
  · rename_i isPost
    exact complete.refated _ (congrArg posted isPost).symm
  · exact complete

theorem Complete.sendError (harmless : posted connection.post = []) : connection.sendError.Complete := by
  unfold LongPoll.sendError
  split
  · rename_i isPost
    rw [isPost] at harmless
    cases harmless
  · exact complete.refated _ harmless.symm

theorem Complete.handleStaleSend (index : Nat) : (connection.handleStaleSend index).Complete := by
  unfold LongPoll.handleStaleSend
  rw [complete.noStaleSends]
  exact complete

theorem Complete.startPoll : connection.startPoll.Complete := by
  unfold LongPoll.startPoll
  split
  · split
    · rename_i isIdle
      exact complete.repolled _ (congrArg polled isIdle).symm
    · exact complete
  · exact complete

theorem Complete.handleRecv : connection.handleRecv.Complete := by
  unfold LongPoll.handleRecv
  split
  · rename_i bytes server isWaiting isPulled
    have carried := complete.downward
    rw [isWaiting] at carried
    obtain ⟨inbound, returned⟩ := HttpLongPollTransport.pullOutbound_frame isPulled
    exact ⟨complete.upward.congr rfl rfl returned inbound, carried.pullOutbound isPulled,
      complete.noStaleSends, complete.noStalePolls⟩
  · exact complete

theorem Complete.pollTimeout : connection.pollTimeout.Complete := by
  unfold LongPoll.pollTimeout
  split
  · rename_i isWaiting
    exact complete.repolled _ (congrArg polled isWaiting).symm
  · exact complete

theorem Complete.sessionGone : connection.sessionGone.Complete := by
  unfold LongPoll.sessionGone
  split
  · rename_i isWaiting _ _
    exact complete.repolled _ (congrArg polled isWaiting).symm
  · exact complete

theorem Complete.pollLost : connection.pollLost.Complete := by
  unfold LongPoll.pollLost
  split
  · exact complete
  · rename_i isPoll
    exact complete.repolled _ (congrArg polled isPoll).symm
  · rename_i isPoll
    exact complete.repolled _ (congrArg polled isPoll).symm
  · rename_i fate notMessage notLost isPoll
    refine complete.repolled _ ?_
    rw [isPoll]
    cases fate with
    | message bytes => exact absurd rfl (notMessage bytes)
    | messageLost bytes => exact absurd rfl (notLost bytes)
    | waiting => rfl
    | empty => rfl
    | gone => rfl
    | lost => rfl

theorem Complete.clientClose : Complete { connection with client := connection.client.close } :=
  ⟨complete.upward.congr rfl rfl rfl rfl, complete.downward.congr rfl rfl rfl rfl,
    complete.noStaleSends, complete.noStalePolls⟩

theorem Complete.pollOk : connection.pollOk.Complete := by
  unfold LongPoll.pollOk
  split
  · split
    · rename_i bytes isPoll
      split
      · rename_i client isPushed
        have carried := complete.downward
        rw [isPoll] at carried
        obtain ⟨outbound, accepted⟩ := HttpLongPollTransport.pushInbound_frame isPushed
        exact ⟨complete.upward.congr accepted outbound rfl rfl, carried.pushInbound isPushed,
          complete.noStaleSends, complete.noStalePolls⟩
      · split
        · exact ⟨complete.clientClose.upward, complete.clientClose.downward, complete.noStaleSends,
            complete.noStalePolls⟩
        · exact complete
    · rename_i isPoll
      have next := complete.repolled none (congrArg polled isPoll).symm
      exact ⟨next.upward, next.downward, next.noStaleSends, next.noStalePolls⟩
    · rename_i isPoll
      have next := complete.clientClose.repolled none (congrArg polled isPoll).symm
      exact ⟨next.upward, next.downward, next.noStaleSends, next.noStalePolls⟩
    · exact complete
  · exact complete

theorem Complete.pollError (harmless : connection.Harmless .pollError) :
    connection.pollError.Complete := by
  unfold LongPoll.pollError
  split
  · split
    · exact complete
    · rename_i fate isPoll
      split
      · exact ⟨complete.clientClose.upward, complete.clientClose.downward, complete.noStaleSends,
          complete.noStalePolls⟩
      · rename_i goesOn
        obtain ⟨notWaiting, noMessage⟩ := harmless.resolve_left goesOn
        have next := complete.repolled none noMessage.symm
        refine ⟨next.upward, next.downward, next.noStaleSends, ?_⟩
        rw [isPoll] at notWaiting
        cases fate with
        | waiting => exact absurd rfl notWaiting
        | _ => exact complete.noStalePolls
  · exact complete

theorem Complete.handleStaleRecv : connection.handleStaleRecv.Complete := by
  unfold LongPoll.handleStaleRecv
  rw [complete.noStalePolls]
  exact complete

theorem Complete.step {event : LongPollEvent α} (harmless : connection.Harmless event) :
    (connection.step event).Complete := by
  cases event with
  | clientSend bytes => exact complete.clientSend bytes
  | serverSend bytes => exact complete.serverSend bytes
  | clientRecv => exact complete.clientRecv
  | serverRecv => exact complete.serverRecv
  | takeOutbound => exact complete.takeOutbound
  | handleSend => exact complete.handleSend
  | sendLost => exact complete.sendLost
  | sendOk => exact complete.sendOk
  | sendError => exact complete.sendError harmless
  | handleStaleSend index => exact complete.handleStaleSend index
  | staleSendLost index =>
    refine ⟨complete.upward, complete.downward, ?_, complete.noStalePolls⟩
    show connection.staleSends.eraseIdx index = []
    rw [complete.noStaleSends]
    rfl
  | startPoll => exact complete.startPoll
  | handleRecv => exact complete.handleRecv
  | pollTimeout => exact complete.pollTimeout
  | sessionGone => exact complete.sessionGone
  | pollLost => exact complete.pollLost
  | pollOk => exact complete.pollOk
  | pollError => exact complete.pollError harmless
  | handleStaleRecv => exact complete.handleStaleRecv
  | stalePollLost =>
    refine ⟨complete.upward, complete.downward, complete.noStaleSends, ?_⟩
    show connection.stalePolls - 1 = 0
    rw [complete.noStalePolls]
  | clientClose => exact complete.clientClose
  | serverClose =>
    exact ⟨complete.upward.congr rfl rfl rfl rfl, complete.downward.congr rfl rfl rfl rfl,
      complete.noStaleSends, complete.noStalePolls⟩
  | stopSending | stopPolling =>
    exact ⟨complete.upward, complete.downward, complete.noStaleSends, complete.noStalePolls⟩

end Steps

/-- **In order or not at all.** In every run in which each failure of an exchange is harmless, what each
side returned is a prefix of what the other one accepted. -/
theorem inOrder_of_harmless (events : List (LongPollEvent α))
    (harmless : Along step Harmless new events) : (events.foldl step new).InOrder :=
  (harmless.keeps (fun _ _ complete meets => complete.step meets) complete_new).inOrder

/-- A run with failures that lose nothing: the response to a post is lost after the server took the
message, and a poll is lost before it reaches the server. -/
theorem inOrder_of_harmless_retried :
    (([.clientSend 1, .clientSend 2, .serverSend 7, .takeOutbound, .handleSend, .sendLost, .sendError,
      .takeOutbound, .handleSend, .sendOk, .startPoll, .pollLost, .pollError, .startPoll, .handleRecv,
      .pollOk, .serverRecv, .serverRecv, .clientRecv] : List (LongPollEvent Nat)).foldl step new).InOrder :=
  inOrder_of_harmless _ (by decide)

/-- **A failed exchange skips a message**: the first `POST /lp/send` is lost on its way, and in the other
direction the response to a `POST /lp/recv`; the second message arrives both times. -/
theorem failed_exchange_skips_message :
    let up : List (LongPollEvent Nat) := [.clientSend 1, .clientSend 2, .takeOutbound, .sendLost,
      .sendError, .takeOutbound, .handleSend, .sendOk, .serverRecv]
    let down : List (LongPollEvent Nat) := [.serverSend 1, .serverSend 2, .startPoll, .handleRecv,
      .pollLost, .pollError, .startPoll, .handleRecv, .pollOk, .clientRecv]
    (up.foldl step new).client.accepted = [1, 2] ∧ (up.foldl step new).server.returned = [2] ∧
      ¬ (up.foldl step new).InOrder ∧
      (down.foldl step new).server.accepted = [1, 2] ∧ (down.foldl step new).client.returned = [2] ∧
      ¬ (down.foldl step new).InOrder := by
  decide

end LongPoll

end Subduction
