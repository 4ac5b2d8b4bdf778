/-
**The responder side of the handshake, and how often it accepts a challenge.**

`respond` receives a challenge, verifies signature, audience and freshness, claims the nonce and
answers. Freshness is measured from the timestamp in the challenge, retention of a claimed nonce from
the time of the claim; the two windows do not fit.

Main result: `accepted_once_iff_spread`.
-/

import Subduction.Handshake.NonceCache

set_option linter.unusedSectionVars false

namespace Subduction

open List

/-! ### Verification -/

inductive HandshakeError where
  | invalidSignature
  | challengeValidation (error : ChallengeValidationError)
  | responseValidation (error : ResponseValidationError)
deriving DecidableEq

inductive AuthenticateError where
  | transport
  | decode (error : DecodeError)
  | handshake (error : HandshakeError)
  | rejected (reason : RejectionReason) (responderTimestamp : TimestampSeconds)
  | unexpectedMessage
  | connectionClosed
  | reflectedChallenge
  | reflectionAttack
  | simultaneousOpenPeerMismatch
deriving DecidableEq

/-- A verified challenge: who signed it, and its contents. -/
structure VerifiedChallenge where
  clientId : PeerId
  challenge : Challenge
deriving DecidableEq

structure VerifiedResponse where
  serverId : PeerId
  response : Response
deriving DecidableEq

section Verify

variable [Ed25519]

/-- `verify_challenge`. -/
def verifyChallenge (signedChallenge : Signed Challenge) (expectedAudience : Audience)
    (now : TimestampSeconds) (maxDrift : Duration) : Except HandshakeError VerifiedChallenge :=
  match signedChallenge.tryVerify with
  | .error _ => .error .invalidSignature
  | .ok verified =>
    match verified.payload.validate expectedAudience now maxDrift with
    | .error error => .error (.challengeValidation error)
    | .ok () => .ok ⟨verified.signed.issuer.peerId, verified.payload⟩

/-- `verify_response`. -/
def verifyResponse [Blake3] (signedResponse : Signed Response) (originalChallenge : Challenge) :
    Except HandshakeError VerifiedResponse :=
  match signedResponse.tryVerify with
  | .error _ => .error .invalidSignature
  | .ok verified =>
    match verified.payload.validate originalChallenge with
    | .error error => .error (.responseValidation error)
    | .ok () => .ok ⟨verified.signed.issuer.peerId, verified.payload⟩

/-- `create_response`. -/
def createResponse [Blake3] (signer : Signer) (challenge : Challenge) (now : TimestampSeconds) :
    Signed Response :=
  .sealPayload signer (.forChallenge challenge now)

/-- `recv_handshake_message`, of what the transport received. -/
def recvHandshakeMessage (received : Option (List UInt8)) :
    Except AuthenticateError HandshakeMessage :=
  match received with
  | none => .error .transport
  | some [] => .error .connectionClosed
  | some bytes =>
    match HandshakeMessage.tryDecode bytes with
    | .error error => .error (.decode error)
    | .ok message => .ok message

theorem recvHandshakeMessage_framed {received : Option (List UInt8)} {message : HandshakeMessage}
    (decoded : recvHandshakeMessage received = .ok message) : message.Framed := by
  unfold recvHandshakeMessage at decoded
  split at decoded
  · exact nomatch decoded
  · exact nomatch decoded
  · split at decoded
    · exact nomatch decoded
    · rename_i isMessage
      obtain rfl := Except.ok.inj decoded
      exact HandshakeMessage.tryDecode_framed isMessage

theorem verifyChallenge_eq_ok {signedChallenge : Signed Challenge} {audience : Audience}
    {now : TimestampSeconds} {maxDrift : Duration} {theirs : VerifiedChallenge}
    (verifies : verifyChallenge signedChallenge audience now maxDrift = .ok theirs) :
    ∃ verified, signedChallenge.tryVerify = .ok verified ∧
      theirs = ⟨signedChallenge.issuer.peerId, verified.payload⟩ := by
  unfold verifyChallenge at verifies
  split at verifies
  · exact nomatch verifies
  · rename_i verified isVerified
    split at verifies
    · exact nomatch verifies
    · obtain rfl := Except.ok.inj verifies
      exact ⟨verified, isVerified, by rw [(Signed.tryVerify_eq_ok.mp isVerified).1]⟩

theorem verifyResponse_eq_ok [Blake3] {signedResponse : Signed Response} {challenge : Challenge}
    {theirs : VerifiedResponse} (verifies : verifyResponse signedResponse challenge = .ok theirs) :
    ∃ verified, signedResponse.tryVerify = .ok verified ∧
      theirs.serverId = signedResponse.issuer.peerId ∧
      verified.payload.challengeDigest = Digest.hash challenge := by
  unfold verifyResponse at verifies
  split at verifies
  · exact nomatch verifies
  · rename_i verified isVerified
    split at verifies
    · exact nomatch verifies
    · rename_i valid
      obtain rfl := Except.ok.inj verifies
      refine ⟨verified, isVerified, by rw [(Signed.tryVerify_eq_ok.mp isVerified).1], ?_⟩
      by_contra different
      unfold Response.validate at valid
      rw [if_pos different] at valid
      exact nomatch valid

end Verify

/-! ### The responder -/

/-- The parameters of `respond`. -/
structure Responder where
  signer : Signer
  ourPeerId : PeerId
  discoveryAudience : Option Audience
  now : TimestampSeconds
  maxDrift : Duration

/-- The reason in the rejection that `send_rejection` sends. -/
def HandshakeError.rejectionReason : HandshakeError → RejectionReason
  | invalidSignature => .invalidSignature
  | responseValidation _ => .invalidSignature
  | challengeValidation error => error.toRejectionReason

namespace Responder

variable [Ed25519]

/-- The verification in `respond`: for the own identity, then for the discovery audience. -/
def verify (responder : Responder) (signedChallenge : Signed Challenge) :
    Except HandshakeError VerifiedChallenge :=
  match verifyChallenge signedChallenge (.known responder.ourPeerId) responder.now responder.maxDrift,
      responder.discoveryAudience with
  | .error (.challengeValidation .invalidAudience), some audience =>
    verifyChallenge signedChallenge audience responder.now responder.maxDrift
  | result, _ => result

theorem verify_eq_ok {responder : Responder} {signedChallenge : Signed Challenge}
    {theirs : VerifiedChallenge} (verifies : responder.verify signedChallenge = .ok theirs) :
    ∃ audience now maxDrift, verifyChallenge signedChallenge audience now maxDrift = .ok theirs := by
  unfold verify at verifies
  split at verifies
  · exact ⟨_, _, _, verifies⟩
  · exact ⟨_, _, _, verifies⟩

/-- `respond`: the cache after the call, what was handed to the transport, and the result. The
transport gives what it received, and says whether it sends. -/
def respond [Blake3] (responder : Responder) (nonceCache : NonceCache) (received : Option (List UInt8))
    (sends : Bool) : NonceCache × List HandshakeMessage × Except AuthenticateError PeerId :=
  let finish := fun result => if sends then result else .error .transport
  match recvHandshakeMessage received with
  | .error error => (nonceCache, [], .error error)
  | .ok (.signedChallenge signedChallenge) =>
    match responder.verify signedChallenge with
    | .error error =>
      (nonceCache, [.rejection ⟨error.rejectionReason, responder.now⟩],
        finish (.error (.handshake error)))
    | .ok verified =>
      match nonceCache.tryClaim verified.clientId verified.challenge.nonce responder.now with
      | (claimed, .error _) =>
        (claimed, [.rejection ⟨.replayedNonce, responder.now⟩],
          finish (.error (.handshake (.challengeValidation .replayedNonce))))
      | (claimed, .ok ()) =>
        (claimed, [.signedResponse (createResponse responder.signer verified.challenge responder.now)],
          finish (.ok verified.clientId))
  | .ok _ => (nonceCache, [], .error .unexpectedMessage)

end Responder

/-! ### Sequences of calls -/

/-- **A call of `respond`**, with what its transport does. -/
structure RespondCall where
  responder : Responder
  received : Option (List UInt8)
  sends : Bool

/-- A pair of issuer and nonce is found at most once. -/
def AcceptedOnce (pairs : List (Option (PeerId × Nonce))) : Prop :=
  pairs.Pairwise fun first second => ∀ pair, first = some pair → second ≠ some pair

namespace RespondCall

variable [Ed25519]

/-- The pair of issuer and nonce of the challenge that the call finds valid: well-formed, with a valid
signature, for the right audience, and fresh. -/
def valid? (call : RespondCall) : Option (PeerId × Nonce) :=
  match recvHandshakeMessage call.received with
  | .ok (.signedChallenge signedChallenge) =>
    match call.responder.verify signedChallenge with
    | .ok verified => some (verified.clientId, verified.challenge.nonce)
    | .error _ => none
  | _ => none

def bucket (bucketDurationSecs : Nat) (call : RespondCall) : Nat :=
  call.responder.now.asSecs / bucketDurationSecs

variable [Blake3]

def run (call : RespondCall) (cache : NonceCache) :
    NonceCache × List HandshakeMessage × Except AuthenticateError PeerId :=
  call.responder.respond cache call.received call.sends

/-- The pair that the call accepts: of its challenge, when it returns a peer. -/
def accepted? (call : RespondCall) (cache : NonceCache) : Option (PeerId × Nonce) :=
  match (call.run cache).2.2 with
  | .ok _ => call.valid?
  | .error _ => none

/-- **The pairs that a sequence of calls on one cache accepts.** -/
def acceptances : List RespondCall → NonceCache → List (Option (PeerId × Nonce))
  | [], _ => []
  | call :: calls, cache => call.accepted? cache :: acceptances calls (call.run cache).1

/-- **Calls with a valid challenge of one pair are fewer than four buckets apart.** -/
def Spread (bucketDurationSecs : Nat) (calls : List RespondCall) : Prop :=
  calls.Pairwise fun first second => ∀ pair, first.valid? = some pair → second.valid? = some pair →
    second.bucket bucketDurationSecs < first.bucket bucketDurationSecs + 4

variable {call : RespondCall} {cache : NonceCache}

theorem run_of_invalid (cache : NonceCache) (invalid : call.valid? = none) :
    (call.run cache).1 = cache ∧ call.accepted? cache = none := by
  unfold accepted?
  rw [invalid]
  refine ⟨?_, by split <;> rfl⟩
  unfold valid? at invalid
  unfold run Responder.respond
  split at invalid
  · rename_i signedChallenge received
    cases isVerified : call.responder.verify signedChallenge with
    | ok verified => simp [isVerified] at invalid
    | error error => simp only [received, isVerified]
  · rename_i other
    cases received : recvHandshakeMessage call.received with
    | error error => rfl
    | ok message =>
      cases message with
      | signedChallenge signedChallenge => exact absurd received (other signedChallenge)
      | signedResponse signedResponse => rfl
      | rejection reply => rfl

/-- A call with a valid challenge claims its pair, and accepts it when the claim is accepted and the
response is sent. -/
theorem run_of_valid (cache : NonceCache) {peer : PeerId} {nonce : Nonce} (valid : call.valid? = some (peer, nonce)) :
    (call.run cache).1 = (cache.tryClaim peer nonce call.responder.now).1 ∧
      (call.accepted? cache = some (peer, nonce) ↔
        (cache.tryClaim peer nonce call.responder.now).2 = .ok () ∧ call.sends = true) ∧
      (call.accepted? cache = none ∨ call.accepted? cache = some (peer, nonce)) := by
  have unchanged := valid
  unfold valid? at valid
  unfold accepted?
  rw [unchanged]
  unfold run Responder.respond
  split at valid
  · rename_i signedChallenge received
    cases isVerified : call.responder.verify signedChallenge with
    | error error => simp [isVerified] at valid
    | ok verified =>
      simp only [isVerified, Option.some.injEq, Prod.mk.injEq] at valid
      obtain ⟨rfl, rfl⟩ := valid
      simp only [received, isVerified]
      generalize cache.tryClaim verified.clientId verified.challenge.nonce call.responder.now = result
      obtain ⟨claimed, outcome⟩ := result
      cases outcome with
      | error reused => cases call.sends <;> simp
      | ok done => cases call.sends <;> simp
  · exact nomatch valid

/-! ### How often a pair is accepted -/

variable {claims : NonceCache.Claim → Prop} {last : Nat}

/-- The calls come in the order of time, none before the bucket number `last`. -/
def InOrder (bucketDurationSecs last : Nat) (calls : List RespondCall) : Prop :=
  (∀ call ∈ calls, last ≤ call.bucket bucketDurationSecs) ∧
    calls.Pairwise fun first second => first.responder.now.asSecs ≤ second.responder.now.asSecs

/-- Every valid challenge of a claimed pair comes fewer than four buckets after the claim. -/
def Near (bucketDurationSecs : Nat) (claims : NonceCache.Claim → Prop) (calls : List RespondCall) :
    Prop :=
  ∀ call ∈ calls, ∀ pair, call.valid? = some pair → ∀ number, claims (pair, number) →
    call.bucket bucketDurationSecs < number + 4

section

variable {duration : Nat} {calls : List RespondCall} (inOrder : InOrder duration last (call :: calls))

include inOrder

theorem InOrder.tail : InOrder duration (call.bucket duration) calls := by
  obtain ⟨-, sorted⟩ := inOrder
  rw [pairwise_cons] at sorted
  exact ⟨fun later member => Nat.div_le_div_right (sorted.1 later member), sorted.2⟩

theorem InOrder.skip : InOrder duration last calls :=
  ⟨fun other member => inOrder.1 other (mem_cons_of_mem _ member), inOrder.tail.2⟩

end

/-- Every pair was claimed once. -/
def Single (claims : NonceCache.Claim → Prop) : Prop :=
  ∀ pair first second, claims (pair, first) → claims (pair, second) → first = second

/-- **What is claimed after a claim**: with it, unless the pair was claimed recently. -/
def claimedAfter (claims : NonceCache.Claim → Prop) (pair : PeerId × Nonce) (current : Nat) :
    NonceCache.Claim → Prop :=
  fun claim => claims claim ∨ ¬ NonceCache.Recent claims pair current ∧ claim = (pair, current)

theorem Single.claimedAfter (single : Single claims) {pair : PeerId × Nonce} {current : Nat}
    (recent : ∀ number, claims (pair, number) → NonceCache.Recent claims pair current) :
    Single (claimedAfter claims pair current) := by
  intro other first second isFirst isSecond
  rcases isFirst with oldFirst | ⟨notRecent, newFirst⟩
  · rcases isSecond with oldSecond | ⟨notRecent, newSecond⟩
    · exact single other first second oldFirst oldSecond
    · obtain ⟨rfl, rfl⟩ := Prod.mk.inj newSecond
      exact absurd (recent first oldFirst) notRecent
  · obtain ⟨rfl, rfl⟩ := Prod.mk.inj newFirst
    rcases isSecond with oldSecond | ⟨-, newSecond⟩
    · exact absurd (recent second oldSecond) notRecent
    · exact (Prod.mk.inj newSecond).2.symm

/-- **A call with a valid challenge**: what is claimed afterwards, and when the pair is accepted. -/
theorem tracks_run {pair : PeerId × Nonce} (valid : call.valid? = some pair)
    (tracks : cache.Tracks claims last) (later : last ≤ call.bucket cache.bucketDurationSecs) :
    let current := call.bucket cache.bucketDurationSecs
    (call.run cache).1.Tracks (claimedAfter claims pair current) current ∧
      (call.run cache).1.bucketDurationSecs = cache.bucketDurationSecs ∧
      (call.accepted? cache = some pair ↔
        ¬ NonceCache.Recent claims pair current ∧ call.sends = true) ∧
      (call.accepted? cache = none ∨ call.accepted? cache = some pair) := by
  obtain ⟨peer, nonce⟩ := pair
  obtain ⟨accepts, tracked, duration⟩ := tracks.tryClaim peer nonce later
  obtain ⟨after, accepted, only⟩ := run_of_valid cache valid
  have sameClaims : (fun claim => claims claim ∨
      (cache.tryClaim peer nonce call.responder.now).2 = .ok () ∧
        claim = ((peer, nonce), call.bucket cache.bucketDurationSecs)) =
      claimedAfter claims (peer, nonce) (call.bucket cache.bucketDurationSecs) := by
    funext claim
    exact propext (or_congr_right (and_congr_left fun _ => accepts))
  rw [accepts] at accepted
  rw [after]
  exact ⟨sameClaims ▸ tracked, duration, accepted, only⟩

/-- **Calls that are spread accept every pair once**, and none that was claimed before. The induction
carries the claims that the cache tracks. -/
theorem acceptedOnce_of_spread {duration : Nat} (calls : List RespondCall) :
    ∀ {cache : NonceCache} {claims : NonceCache.Claim → Prop} {last : Nat},
      cache.bucketDurationSecs = duration → cache.Tracks claims last → InOrder duration last calls →
      Spread duration calls → Near duration claims calls → AcceptedOnce (acceptances calls cache) ∧
        ∀ pair, some pair ∈ acceptances calls cache → ∀ number, ¬ claims (pair, number) := by
  induction calls with
  | nil =>
    intro cache claims last _ _ _ _ _
    exact ⟨List.Pairwise.nil, fun pair impossible => absurd impossible not_mem_nil⟩
  | cons call calls ih =>
    intro cache claims last isDuration tracks inOrder spread near
    subst isDuration
    unfold Spread at spread
    rw [pairwise_cons] at spread
    have nearTail : Near cache.bucketDurationSecs claims calls :=
      fun later member => near later (mem_cons_of_mem _ member)
    unfold acceptances AcceptedOnce
    rw [pairwise_cons]
    cases valid : call.valid? with
    | none =>
      obtain ⟨same, nothing⟩ := run_of_invalid cache valid
      rw [same, nothing]
      obtain ⟨once, fresh⟩ := ih rfl tracks inOrder.skip spread.2 nearTail
      refine ⟨⟨fun _ _ pair impossible => absurd impossible (by simp), once⟩,
        fun pair member => ?_⟩
      exact fresh pair ((mem_cons.mp member).resolve_left (by simp))
    | some claimed =>
      obtain ⟨tracked, duration, accepted, only⟩ :=
        tracks_run valid tracks (inOrder.1 call mem_cons_self)
      have nearNext : Near cache.bucketDurationSecs
          (claimedAfter claims claimed (call.bucket cache.bucketDurationSecs)) calls := by
        intro other member pair isValid number isClaim
        rcases isClaim with old | ⟨-, new⟩
        · exact nearTail other member pair isValid number old
        · obtain ⟨rfl, rfl⟩ := Prod.mk.inj new
          exact spread.1 other member _ valid isValid
      obtain ⟨once, fresh⟩ := ih duration tracked inOrder.tail spread.2 nearNext
      have headPair : ∀ pair, call.accepted? cache = some pair → pair = claimed ∧
          ¬ NonceCache.Recent claims claimed (call.bucket cache.bucketDurationSecs) := by
        intro pair isAccepted
        rcases only with nothing | isPair
        · exact absurd (nothing.symm.trans isAccepted) (by simp)
        · exact ⟨(Option.some.inj (isPair.symm.trans isAccepted)).symm, (accepted.mp isPair).1⟩
      refine ⟨⟨fun other member pair isAccepted isOther => ?_, once⟩,
        fun pair member number isClaim => ?_⟩
      · obtain ⟨rfl, notRecent⟩ := headPair pair isAccepted
        rw [isOther] at member
        exact fresh _ member _ (Or.inr ⟨notRecent, rfl⟩)
      · rcases mem_cons.mp member with isHead | inTail
        · obtain ⟨rfl, notRecent⟩ := headPair pair isHead.symm
          exact notRecent ⟨number, isClaim, near call mem_cons_self _ valid number isClaim⟩
        · exact fresh pair inTail number (Or.inl isClaim)

/-- A call accepts its pair when the pair was not claimed recently; a pair that is never accepted
again was. -/
theorem recent_of_not_accepted {pair : PeerId × Nonce} {current : Nat}
    (accepted : call.accepted? cache = some pair ↔
      ¬ NonceCache.Recent claims pair current ∧ call.sends = true) (sends : call.sends = true)
    (fresh : call.accepted? cache = some pair → ∀ number, ¬ claims (pair, number)) {number : Nat}
    (isClaim : claims (pair, number)) : NonceCache.Recent claims pair current := by
  by_contra notRecent
  exact fresh (accepted.mpr ⟨notRecent, sends⟩) number isClaim

theorem spread_of_acceptedOnce {duration : Nat} (calls : List RespondCall) :
    ∀ {cache : NonceCache} {claims : NonceCache.Claim → Prop} {last : Nat},
      cache.bucketDurationSecs = duration → cache.Tracks claims last → InOrder duration last calls →
      (∀ call ∈ calls, call.sends = true) → Single claims →
      AcceptedOnce (acceptances calls cache) →
      (∀ pair, some pair ∈ acceptances calls cache → ∀ number, ¬ claims (pair, number)) →
      Spread duration calls ∧ Near duration claims calls := by
  induction calls with
  | nil =>
    intro cache claims last _ _ _ _ _ _ _
    exact ⟨List.Pairwise.nil, fun call impossible => absurd impossible not_mem_nil⟩
  | cons call calls ih =>
    intro cache claims last isDuration tracks inOrder sent single once fresh
    subst isDuration
    have sentTail : ∀ later ∈ calls, later.sends = true :=
      fun later member => sent later (mem_cons_of_mem _ member)
    unfold acceptances at once fresh
    unfold AcceptedOnce at once
    rw [pairwise_cons] at once
    unfold Spread
    rw [pairwise_cons]
    cases valid : call.valid? with
    | none =>
      obtain ⟨same, nothing⟩ := run_of_invalid cache valid
      rw [same] at once fresh
      obtain ⟨spread, near⟩ := ih rfl tracks inOrder.skip sentTail single once.2
        fun pair member => fresh pair (mem_cons_of_mem _ member)
      refine ⟨⟨fun _ _ pair impossible => absurd impossible (by simp), spread⟩, ?_⟩
      intro other member pair isValid
      rcases mem_cons.mp member with rfl | inTail
      · exact absurd (valid.symm.trans isValid) (by simp)
      · exact near other inTail pair isValid
    | some claimed =>
      have sends := sent call mem_cons_self
      obtain ⟨tracked, duration, accepted, -⟩ :=
        tracks_run valid tracks (inOrder.1 call mem_cons_self)
      have recent : ∀ number, claims (claimed, number) →
          NonceCache.Recent claims claimed (call.bucket cache.bucketDurationSecs) :=
        fun number isClaim => recent_of_not_accepted accepted sends
          (fun isAccepted => fresh _ (mem_cons.mpr (Or.inl isAccepted.symm))) isClaim
      have freshNext : ∀ pair, some pair ∈ acceptances calls (call.run cache).1 → ∀ number,
          ¬ claimedAfter claims claimed (call.bucket cache.bucketDurationSecs) (pair, number) := by
        intro pair member number isClaim
        rcases isClaim with old | ⟨notRecent, new⟩
        · exact fresh pair (mem_cons_of_mem _ member) number old
        · obtain ⟨rfl, rfl⟩ := Prod.mk.inj new
          exact once.1 _ member _ (accepted.mpr ⟨notRecent, sends⟩) rfl
      obtain ⟨spread, near⟩ := ih duration tracked inOrder.tail sentTail
        (single.claimedAfter recent) once.2 freshNext
      refine ⟨⟨fun other member pair isPair isValid => ?_, spread⟩,
        fun other member pair isValid number isClaim => ?_⟩
      · obtain rfl := Option.some.inj isPair
        by_cases wasRecent : NonceCache.Recent claims claimed (call.bucket cache.bucketDurationSecs)
        · obtain ⟨number, isClaim, -⟩ := wasRecent
          have close := near other member _ isValid number (Or.inl isClaim)
          have bound : number ≤ last := tracks.bounded _ isClaim
          have later : last ≤ call.bucket cache.bucketDurationSecs :=
            inOrder.1 call mem_cons_self
          omega
        · exact near other member _ isValid _ (Or.inr ⟨wasRecent, rfl⟩)
      · rcases mem_cons.mp member with rfl | inTail
        · obtain rfl := Option.some.inj (valid.symm.trans isValid)
          obtain ⟨other, otherClaim, close⟩ := recent number isClaim
          rw [single _ number other isClaim otherClaim]
          exact close
        · exact near other inTail pair isValid number (Or.inl isClaim)

end RespondCall

/-- **A pair is accepted at most once exactly when its valid challenges are fewer than four buckets
apart**, for calls in the order of time on one cache. Where a response cannot be sent the call accepts
nothing, so the second part is for calls that send. -/
theorem accepted_once_iff_spread [Ed25519] [Blake3] (calls : List RespondCall)
    (inOrder : calls.Pairwise fun first second =>
      first.responder.now.asSecs ≤ second.responder.now.asSecs) :
    (RespondCall.Spread NonceCache.default.bucketDurationSecs calls →
      AcceptedOnce (RespondCall.acceptances calls NonceCache.default)) ∧
    ((∀ call ∈ calls, call.sends = true) →
      AcceptedOnce (RespondCall.acceptances calls NonceCache.default) →
        RespondCall.Spread NonceCache.default.bucketDurationSecs calls) := by
  have tracks := NonceCache.tracks_new defaultBucketDuration
  have started : RespondCall.InOrder NonceCache.default.bucketDurationSecs 0 calls :=
    ⟨fun _ _ => Nat.zero_le _, inOrder⟩
  refine ⟨fun spread => ?_, fun sent once => ?_⟩
  · exact (RespondCall.acceptedOnce_of_spread calls rfl tracks started spread
      fun _ _ _ _ _ impossible => impossible.elim).1
  · exact (RespondCall.spread_of_acceptedOnce calls rfl tracks started sent
      (fun _ _ _ impossible => impossible.elim) once fun _ _ _ impossible => impossible).1

/-! ### A challenge from the future -/

def earlyChallenge : Challenge := ⟨.known ⟨2⟩, ⟨600⟩, ⟨7⟩⟩

/-- The challenge signed by peer `1`. -/
def earlySigned : Signed Challenge := .sealPayload ⟨⟨1⟩, fun _ => ⟨0⟩⟩ earlyChallenge

/-- A call of peer `2` that receives the challenge at the given time. -/
def earlyCall (secs : UInt64) : RespondCall :=
  ⟨⟨⟨⟨2⟩, fun _ => ⟨0⟩⟩, ⟨2⟩, none, ⟨secs⟩, maxPlausibleDrift⟩, some earlySigned.bytes, true⟩

/-- **A challenge that is early is accepted, forgotten, and accepted again** twelve minutes later. -/
theorem early_challenge_accepted_twice : letI : Ed25519 := ⟨fun _ => true, fun _ _ _ => true⟩
    letI : Blake3 := ⟨fun _ => 0⟩
    (earlyCall 0).responder.now.asSecs ≤ (earlyCall 720).responder.now.asSecs ∧
      RespondCall.acceptances [earlyCall 0, earlyCall 720] NonceCache.default =
        [some (⟨1⟩, ⟨7⟩), some (⟨1⟩, ⟨7⟩)] := by
  decide +kernel

theorem accepted_once_iff_spread_early : letI : Ed25519 := ⟨fun _ => true, fun _ _ _ => true⟩
    letI : Blake3 := ⟨fun _ => 0⟩
    ([earlyCall 0, earlyCall 300].Pairwise fun first second =>
        first.responder.now.asSecs ≤ second.responder.now.asSecs) ∧
      AcceptedOnce (RespondCall.acceptances [earlyCall 0, earlyCall 300] NonceCache.default) := by
  let _ : Ed25519 := ⟨fun _ => true, fun _ _ _ => true⟩
  let _ : Blake3 := ⟨fun _ => 0⟩
  have inOrder : [earlyCall 0, earlyCall 300].Pairwise fun first second =>
      first.responder.now.asSecs ≤ second.responder.now.asSecs := by decide
  refine ⟨inOrder, (accepted_once_iff_spread _ inOrder).1 ?_⟩
  refine List.pairwise_pair.mpr fun pair _ _ => ?_
  decide

end Subduction
