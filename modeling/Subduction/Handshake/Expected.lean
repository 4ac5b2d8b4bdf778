/-
**Whom a call of `initiate` for a known peer returns.**

A call with the audience `Known(p)` puts `p` into its challenge and never looks at it again: the peer
that it returns is the signer of the response. The transport belongs to an adversary, which delivers
any bytes out of a set; what a call returns over it is `p` exactly when the set holds no response of
another key.

Main result: `returns_expected_iff`.
-/

import Subduction.Handshake.Agreement

namespace Subduction

section Calls

variable [Ed25519] [Blake3]

/-- **A call of `initiate` over a transport**: whether the challenge is sent, and for each receive what
it returns and whether the send after it succeeds. -/
def Initiator.call (initiator : Initiator) (opens : Bool)
    (transport : List (Option (List UInt8) × Bool)) : InitiateState :=
  if opens then
    transport.foldl (fun state entry => (initiator.recv state entry.1 entry.2).1) .awaitFirst
  else .finished (.error .transport)

/-! ### What a call returns -/

theorem Initiator.simultaneousOpen_sends (initiator : Initiator) (signedChallenge : Signed Challenge) :
    (initiator.simultaneousOpen signedChallenge false).1 =
        (initiator.simultaneousOpen signedChallenge true).1 ∨
      (initiator.simultaneousOpen signedChallenge false).1 = .finished (.error .transport) := by
  unfold Initiator.simultaneousOpen
  split
  · exact Or.inl rfl
  · split
    · exact Or.inl rfl
    · split
      · exact Or.inl rfl
      · split
        · exact Or.inl rfl
        · exact Or.inr rfl

theorem Initiator.recv_sends (initiator : Initiator) (state : InitiateState)
    (received : Option (List UInt8)) (sends : Bool) :
    (initiator.recv state received sends).1 = (initiator.recv state received true).1 ∨
      (initiator.recv state received sends).1 = .finished (.error .transport) := by
  cases sends with
  | true => exact Or.inl rfl
  | false =>
    cases state with
    | awaitFirst =>
      cases decoded : recvHandshakeMessage received with
      | error error =>
        left
        simp only [Initiator.recv, decoded]
      | ok message =>
        cases message with
        | signedResponse signedResponse =>
          left
          simp only [Initiator.recv, decoded]
        | rejection reply =>
          left
          simp only [Initiator.recv, decoded]
        | signedChallenge signedChallenge =>
          simp only [Initiator.recv, decoded]
          exact initiator.simultaneousOpen_sends signedChallenge
    | awaitAsWinner theirs =>
      cases verifies : initiator.recvVerifiedResponse received with
      | error error =>
        left
        simp only [Initiator.recv, verifies]
      | ok peer =>
        simp only [Initiator.recv, verifies]
        split
        · exact Or.inl rfl
        · exact Or.inr rfl
    | awaitAsLoser theirs => exact Or.inl rfl
    | finished result => exact Or.inl rfl

theorem Initiator.answered_of_recv {initiator : Initiator} {state : InitiateState}
    {received : Option (List UInt8)} {sends : Bool} {peer : PeerId}
    (returns : (initiator.recv state received sends).1 = .finished (.ok peer)) :
    state = .finished (.ok peer) ∨ AnsweredBy initiator.challenge received peer := by
  have sent : (initiator.recv state received true).1 = .finished (.ok peer) := by
    rcases initiator.recv_sends state received sends with same | failed
    · rw [← same]
      exact returns
    · rw [failed] at returns
      exact nomatch returns
  have step := initiator.recv_received state received
  rw [sent] at step
  generalize (initiator.recv state received true).2 = messages at step
  cases step with
  | ended => exact Or.inl rfl
  | answered answers => exact Or.inr answers
  | winner answers => exact Or.inr answers
  | loser answers => exact Or.inr answers

theorem Initiator.answered_of_call {initiator : Initiator} {opens : Bool}
    {transport : List (Option (List UInt8) × Bool)} {peer : PeerId}
    (returns : initiator.call opens transport = .finished (.ok peer)) :
    ∃ entry ∈ transport, AnsweredBy initiator.challenge entry.1 peer := by
  have run : ∀ (entries : List (Option (List UInt8) × Bool)) (state : InitiateState),
      entries.foldl (fun state entry => (initiator.recv state entry.1 entry.2).1) state =
        .finished (.ok peer) →
      state = .finished (.ok peer) ∨ ∃ entry ∈ entries, AnsweredBy initiator.challenge entry.1 peer := by
    intro entries
    induction entries with
    | nil => exact fun state returns => Or.inl returns
    | cons entry entries ih =>
      intro state returns
      rcases ih _ returns with now | ⟨later, member, answers⟩
      · rcases answered_of_recv now with before | answers
        · exact Or.inl before
        · exact Or.inr ⟨entry, List.mem_cons_self, answers⟩
      · exact Or.inr ⟨later, List.mem_cons_of_mem _ member, answers⟩
  unfold Initiator.call at returns
  split at returns
  · rcases run transport .awaitFirst returns with impossible | answered
    · exact nomatch impossible
    · exact answered
  · exact nomatch returns

theorem Initiator.call_of_answered {initiator : Initiator} {received : Option (List UInt8)}
    {peer : PeerId} (answers : AnsweredBy initiator.challenge received peer) :
    initiator.call true [(received, true)] = .finished (.ok peer) := by
  obtain ⟨signedResponse, response, decoded, verifies⟩ := answers
  show (initiator.recv .awaitFirst received true).1 = _
  simp only [Initiator.recv, decoded, verifies]

/-- **A call for a known peer returns this peer**, over every transport that delivers out of the set,
exactly when no other key answers its challenge there. -/
theorem returns_expected_iff (signer : Signer) (expected : PeerId) (now : TimestampSeconds)
    (nonce : Nonce) (deliverable : Option (List UInt8) → Prop) :
    (∀ (opens : Bool) (transport : List (Option (List UInt8) × Bool)),
      (∀ entry ∈ transport, deliverable entry.1) →
        ∀ peer, (Initiator.mk signer (.known expected) now nonce).call opens transport =
          .finished (.ok peer) → peer = expected) ↔
      ∀ received peer, deliverable received →
        AnsweredBy ⟨.known expected, now, nonce⟩ received peer → peer = expected := by
  refine ⟨fun returned received peer delivers answers => ?_,
    fun answered opens transport delivers peer returns => ?_⟩
  · refine returned true [(received, true)] (fun entry member => ?_) peer
      (Initiator.call_of_answered answers)
    rw [List.mem_singleton.mp member]
    exact delivers
  · obtain ⟨entry, member, answers⟩ := Initiator.answered_of_call returns
    exact answered entry.1 peer (delivers entry member) answers

end Calls

/-! ### Another key -/

/-- Key `3` calls `initiate` for key `1`. -/
def mallory : Initiator := ⟨signerOf 3, .known ⟨1⟩, ⟨0⟩, ⟨9⟩⟩

/-- **Key `3` is returned in place of key `2`.** Key `1` calls `initiate` for key `2`; the adversary,
which forges no signature of an honest key, answers with its own key, at once or after a challenge of
its own. -/
theorem other_key_returned : letI := shownKeys
    letI := lastBytes
    let world := World.start.initiate alice
    let answer := some (createResponse mallory.signer alice.challenge ⟨0⟩).bytes
    let challenge := some mallory.signedChallenge.bytes
    alice.audience = .known ⟨2⟩ ∧ world.Deliverable IsPair answer ∧
      world.Deliverable IsPair challenge ∧
      alice.call true [(answer, true)] = .finished (.ok ⟨3⟩) ∧
      alice.call true [(challenge, true), (answer, true)] = .finished (.ok ⟨3⟩) := by
  let _ := shownKeys
  let _ := lastBytes
  refine ⟨rfl, ?_, ?_, ?_, ?_⟩
  · exact World.deliverable_of (.signedResponse (createResponse mallory.signer alice.challenge ⟨0⟩))
      (by decide +kernel) (by decide +kernel)
  · exact World.deliverable_of (.signedChallenge mallory.signedChallenge) (by decide +kernel)
      (by decide +kernel)
  · decide +kernel
  · decide +kernel

end Subduction
