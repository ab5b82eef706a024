import Arena0.ExecError

/-!
# The execution actor

What one actor decides on each of its inputs, as a function of the aggregate it
holds: answer without a write, commit a successor aggregate and then answer, or
fail.  A guest call is its reply; nothing is assumed about the program.
-/

namespace Arena0

open Borsh Fallible

variable {κ : Primitives}

variable (κ) in
/-- The outcome of one handler: at most one durable write, made before the answer. -/
inductive Decision (α : Type) where
  | done (result : α)
  | commit (next : ExecutionState κ) (change : Change κ) (result : α)
  | fail (error : ExecError)

def Decision.map {α β : Type} (f : α → β) : Decision κ α → Decision κ β
  | .done result => .done (f result)
  | .commit next change result => .commit next change (f result)
  | .fail error => .fail error

/-- What the sandbox returns for one dispatch.  The projection is the answer of the
outcome call made when the session ends. -/
inductive GuestReply where
  | trapped (message : String)
  | rejected (reason : Option String)
  | accepted (shared : Option SharedStateBytes) (localState : Option LocalStateBytes)
      (effects : List Effect) (callout : Option CalloutRequest)
      (projection : Except String (Bytes × Bytes))
  deriving DecidableEq

inductive DispatchSource where
  | host
  | answer (pendingId : UInt64)
  | timer (timerId : TimerId)
  | peerMessage (commitment : StepCommitment)
  | ownMessage
  | direct (source : PeerId) (seq : UInt64)
  deriving DecidableEq

def DispatchSource.pendingId : DispatchSource → Option UInt64
  | .answer pendingId => some pendingId
  | _ => none

inductive DispatchOutcome where
  | committed
  | frozen
  | rejected (reason : Option String)
  deriving DecidableEq

inductive ExecDeliveryRejection where
  | notYet | rejected | conflict
  deriving DecidableEq

def maxRejectionReasonBytes : ℕ := 1024

def popWhileOver (limit : ℕ) : ℕ → List Char → List Char
  | 0, chars => chars
  | n + 1, chars =>
    if limit < byteLen (String.ofList chars) then popWhileOver limit n chars.dropLast else chars

def truncateReason (reason : String) (limit : ℕ) : String :=
  String.ofList (popWhileOver limit reason.toList.length reason.toList)

namespace Actor

/-! ## Guest dispatches -/

/-- The handler a trap of this event rejects; other traps are fatal. -/
def trapHandler : Event → Option String
  | .inputReceived .. => some "input"
  | .directReceived .. => some "direct"
  | .messageReceived .. => some "message"
  | .sessionStarted _ | .timerFired _ => none

def sessionEndOutcome : List Effect → Option Bytes
  | [] => none
  | .sessionEnd outcome :: _ => some outcome
  | _ :: effects => sessionEndOutcome effects

def terminalOutcome (κ : Primitives) (effects : List Effect)
    (projection : Except String (Bytes × Bytes)) :
    Except ExecError (Option (TerminalOutcome κ)) :=
  match sessionEndOutcome effects with
  | none => .ok none
  | some outcome => do
    let (borsh, json) ← projection.mapError .unavailable
    ensure (borsh = outcome)
      (.invalidState "SessionEnd outcome differs from the guest outcome projection")
    let outcome ← (TerminalOutcome.new κ borsh json).mapError .ofProtocol
    return some outcome

def refusedDispatch (s : ExecutionState κ) (source : DispatchSource) (error : ProtocolError) :
    Decision κ DispatchOutcome :=
  match source, error with
  | _, .outgoingQueueFull .. => .fail .outgoingQueueOverflow
  | _, .receiptBudgetExhausted step => .fail (.receiptBudgetExhausted step)
  | .peerMessage _, other => .fail (.diverged (truncateReason
      s!"diverged at step {s.agreedStep}: {other}" maxTerminalReasonBytes))
  | _, other => .done (.rejected (some (truncateReason (toString other) maxRejectionReasonBytes)))

/-- The field in which a rebuilt commitment differs from the author's. -/
def divergenceCause (own author : StepCommitment) : String :=
  if own.postState ≠ author.postState then "post-state mismatch"
  else if own.entryHash ≠ author.entryHash then "entry mismatch"
  else if own.link ≠ author.link then "link mismatch"
  else "commitment mismatch"

/-- Commit what an accepted dispatch computed, with the consumption of its source. -/
def commitDispatch (s next : ExecutionState κ) (event : Event) (source : DispatchSource)
    (effects : List Effect) : Decision κ DispatchOutcome :=
  match source with
  | .peerMessage commitment =>
    match next.proposalCommitment with
    | some own =>
      if own = commitment then .commit next (.dispatch event effects none) .committed
      else .fail (.diverged (truncateReason
        s!"diverged at step {s.agreedStep}: {divergenceCause own commitment}"
        maxTerminalReasonBytes))
    | none => .fail (.invalidState "a peer dispatch stages a proposal")
  | .direct peer seq =>
    match next.recordDirect peer seq with
    | .ok next => .commit next (.dispatch event effects none) .committed
    | .error error => .fail (.ofProtocol error)
  | .timer timerId => .commit next (.dispatch event effects (some timerId)) .committed
  | .host | .answer _ | .ownMessage => .commit next (.dispatch event effects none) .committed

def dispatchInner (s : ExecutionState κ) (event : Event) (source : DispatchSource)
    (reply : GuestReply) : Decision κ DispatchOutcome :=
  match reply with
  | .trapped message =>
    match trapHandler event with
    | some handler => .done (.rejected (some (truncateReason
        s!"{handler} handler trapped: {message}" maxRejectionReasonBytes)))
    | none => .fail (.unavailable message)
  | .rejected reason => .done (.rejected reason)
  | .accepted (some shared) (some localState) effects callout projection =>
    match terminalOutcome κ effects projection with
    | .error error => .fail error
    | .ok outcome =>
      match s.applyDispatch event ⟨shared, localState, effects, outcome, callout⟩
          source.pendingId with
      | .error error => refusedDispatch s source error
      | .ok (next, _) => commitDispatch s next event source effects
  | .accepted .. => .fail (.invalidState "accepted dispatch returned no state images")

def answersOpenCallout (s : ExecutionState κ) (event : Event) (source : DispatchSource) : Bool :=
  match event, source with
  | .inputReceived calloutIndex _, .answer pendingId =>
    match s.callout with
    | some opened => pendingId = opened.id && calloutIndex = opened.calloutIndex
    | none => false
  | .inputReceived .., _ => false
  | _, _ => true

/-- Dispatch one event; outside an active execution without a proposal it does not run. -/
def dispatchEvent (s : ExecutionState κ) (event : Event) (source : DispatchSource)
    (reply : GuestReply) : Decision κ DispatchOutcome :=
  if answersOpenCallout s event source = false then .fail .calloutNotPending
  else if s.status.isTerminal = true ∨ s.proposal.isSome = true ∨ s.status ≠ .active then
    .done .frozen
  else dispatchInner s event source reply

/-- Dispatch the next direct frame; a rejected one is recorded and dropped. -/
def dispatchDirect (s : ExecutionState κ) (peer : PeerId) (seq : UInt64) (msg : Bytes)
    (attachment : Option Bytes) (reply : GuestReply) : Decision κ DispatchOutcome :=
  match dispatchEvent s (.directReceived peer msg (attachment.map fun _ => 0)) (.direct peer seq)
      reply with
  | .done (.rejected reason) =>
    match s.recordDirect peer seq with
    | .ok next => .commit next .state (.rejected reason)
    | .error error => .fail (.ofProtocol error)
  | decision => decision

def submitInput (s : ExecutionState κ) (pendingId : UInt64) (data : Bytes)
    (reply : GuestReply) : Decision κ Unit :=
  match s.callout with
  | none => .fail .calloutNotPending
  | some opened =>
    match dispatchEvent s (.inputReceived opened.calloutIndex data) (.answer pendingId) reply with
    | .done .frozen => .fail .agreementPending
    | .done (.rejected reason) =>
      .fail (.inputRejected (reason.getD "input handler rejected the answer"))
    | decision => decision.map fun _ => ()

/-- Inject the session start into an active execution that has no step yet. -/
def ensureSessionStarted (s : ExecutionState κ) (reply : GuestReply) : Decision κ Unit :=
  if s.status.lifecycle ≠ .active ∨ s.agreedStep ≠ 0 ∨ s.proposal.isSome = true then .done ()
  else
    match s.binding.ensemble with
    | .error _ => .fail (.invalidState "validated activation has a committed ensemble")
    | .ok ensemble =>
      match dispatchEvent s (.sessionStarted ensemble) .host reply with
      | .done _ => .fail (.invalidState "session start was rejected by the guest handler")
      | decision => decision.map fun _ => ()

/-- Dispatch one peer message bound to the agreed cursor, with no staged proposal. -/
def applyMessage (s : ExecutionState κ) (source : PeerId) (commitment : StepCommitment)
    (data : Bytes) (reply : GuestReply) : Decision κ Unit :=
  match dispatchEvent s (.messageReceived source data) (.peerMessage commitment) reply with
  | .done (.rejected reason) =>
    let text := s!"diverged at step {commitment.step}: program rejected the message"
    .fail (.diverged (truncateReason
      (match reason with
        | some reason => text ++ ": " ++ reason
        | none => text) maxTerminalReasonBytes))
  | decision => decision.map fun _ => ()

def mayAuthor (s : ExecutionState κ) : Bool :=
  s.status = .active && s.proposal.isNone && !s.outgoing.isEmpty

/-- Author the oldest queued message; a rejected one is dropped from the queue. -/
def authorNextMessage (s : ExecutionState κ) (reply : GuestReply) : Decision κ Unit :=
  if mayAuthor s then
    match dispatchEvent s (.messageReceived s.producer (s.outgoing.headD [])) .ownMessage reply with
    | .done (.rejected _) =>
      match s.dropOutgoingHead with
      | .ok next => .commit next .state ()
      | .error error => .fail (.ofProtocol error)
    | decision => decision.map fun _ => ()
  else .done ()

def fireTimer (s : ExecutionState κ) (row : TimerRow) (reply : GuestReply) : Decision κ Unit :=
  match TimerPayload.codec.fromSlice row.payload with
  | none => .fail (.unavailable "store corruption: active timer payload decode failed")
  | some timer => (dispatchEvent s (.timerFired timer) (.timer row.timerId) reply).map fun _ => ()

/-- A recovered actor activates its execution before it takes any other input. -/
def recover (s : ExecutionState κ) : Decision κ Unit :=
  if s.status.lifecycle ≠ .activating then .done ()
  else
    match s.activate with
    | .ok next => .commit next .state ()
    | .error error => .fail (.ofProtocol error)

/-! ## Signatures and stops -/

/-- The keys of one host: its identity, the execution key and the identity key. -/
structure HostKeys where
  peerId : PeerId
  sign : Bytes → BlsSignature
  identitySign : Bytes → Ed25519Signature

/-- Sign the staged proposal unless this participant has signed it. -/
def ensureStepSignature (keys : HostKeys) (s : ExecutionState κ) : Decision κ Unit :=
  match s.proposal with
  | none => .done ()
  | some proposal =>
    if ExecutionState.hasSigned proposal keys.peerId then .done ()
    else
      let commitment := s.commitmentFor proposal
      let signature := ParticipantStepSignature.new keys.peerId commitment.step
        (keys.sign commitment.signingBytes)
      match s.addStepSignature signature with
      | .ok (next, certified) => .commit next (.stepSignature certified) ()
      | .error error => .fail (.ofProtocol error)

/-- The aggregate after this participant's own stop, with the occurrence it signed. -/
def stoppedState (keys : HostKeys) (s : ExecutionState κ) (kind : AbortKind) (code : UInt32)
    (reason : String) : Except ExecError (ExecutionState κ × AbortOccurrence) := do
  ensure (s.producer = keys.peerId)
    (.invalidState "failure signer is not the execution producer")
  let unsigned ← (AbortOccurrence.unsigned s.binding.sessionId keys.peerId kind code
    (truncateReason reason maxTerminalReasonBytes) s.stepCursor).mapError .ofProtocol
  let bytes ← unsigned.signingBytes.mapError .ofProtocol
  let occurrence ← (unsigned.withSignature (keys.identitySign bytes)).mapError .ofProtocol
  let next ← (s.stop occurrence).mapError .ofProtocol
  return (next, occurrence)

/-- Stop a running execution; a terminal one keeps its conclusion. -/
def persistAbort (keys : HostKeys) (s : ExecutionState κ) (kind : AbortKind) (code : UInt32)
    (reason : String) : Decision κ Unit :=
  if s.status.isTerminal then .done ()
  else
    match stoppedState keys s kind code reason with
    | .ok (next, _) => .commit next .state ()
    | .error error => .fail error

def publishReceipt (db : Db κ) (s : ExecutionState κ) : Decision κ Unit :=
  if s.status.receiptWork ≠ .assemble then .done ()
  else
    match db.assembleReceipt s with
    | .error error => .fail (.ofStore error)
    | .ok artifact =>
      match s.publishReceipt artifact with
      | .ok next => .commit next (.publish artifact) ()
      | .error error => .fail (.ofProtocol error)

def expireConfirmation (s : ExecutionState κ) : Decision κ Unit :=
  match s.endPhase with
  | .ending _ =>
    match s.expireEnd with
    | .ok next => .commit next .state ()
    | .error error => .fail (.ofProtocol error)
  | _ => .done ()

/-! ## Delivery -/

/-- Authenticate a frame against the session binding before any comparison. -/
def authenticates (s : ExecutionState κ) (source : PeerId) (frame : ExecFrame) : Bool :=
  s.binding.isParticipant source &&
    match frame with
    | .stepCertificate certificate => (certificate.verify s.binding).isOk
    | .abort occurrence => occurrence.sessionId = s.binding.sessionId &&
        s.binding.isParticipant occurrence.sender &&
        (occurrence.verifySignature κ).toOption.getD false
    | .stepSignature commitment _ => commitment.sessionId = s.binding.sessionId
    | .message .. | .direct .. => true

def confirmPeer (s : ExecutionState κ) (peer : PeerId) : Decision κ Unit :=
  match s.confirmEnd peer with
  | .ok (some next) => .commit next .state ()
  | .ok none => .done ()
  | .error error => .fail (.ofProtocol error)

/-- A frame for a terminal execution confirms its sender, contradicts it or is stale. -/
def acceptTerminal (s : ExecutionState κ) (source : PeerId) (frame : ExecFrame) :
    Decision κ (Option ExecDeliveryRejection) :=
  match s.endConclusionMatches frame with
  | .same => (confirmPeer s source).map fun _ => none
  | .different => .done (some .conflict)
  | .notTerminalEvidence => .done none

def acceptMessage (s : ExecutionState κ) (source : PeerId) (commitment : StepCommitment)
    (data : Bytes) (reply : GuestReply) : Decision κ (Option ExecDeliveryRejection) :=
  if commitment.step < s.agreedStep then .done none
  else if s.agreedStep < commitment.step then .done (some .notYet)
  else if commitment.sessionId ≠ s.binding.sessionId ∨ commitment.preState ≠ s.agreedState ∨
      commitment.link ≠ s.agreedLink then .done (some .rejected)
  else
    match s.proposal with
    | some proposal =>
      if s.proposalCommitment = some commitment ∧ proposal.entry.event = .message source data then
        .done none
      else .done (some .conflict)
    | none => (applyMessage s source commitment data reply).map fun _ => none

def acceptStepSignature (s : ExecutionState κ) (source : PeerId) (commitment : StepCommitment)
    (signature : BlsSignature) : Decision κ (Option ExecDeliveryRejection) :=
  if commitment.step < s.agreedStep then .done none
  else if s.agreedStep < commitment.step then .done (some .notYet)
  else
    match s.proposal with
    | none => .done (some .notYet)
    | some proposal =>
      if s.proposalCommitment ≠ some commitment then .done (some .rejected)
      else
        let signature := ParticipantStepSignature.new source commitment.step signature
        if signature ∈ proposal.signatures then .done none
        else
          match s.addStepSignature signature with
          | .ok (next, certified) => .commit next (.stepSignature certified) none
          | .error _ => .done (some .rejected)

def acceptStepCertificate (s : ExecutionState κ) (certificate : StepCertificate) :
    Decision κ (Option ExecDeliveryRejection) :=
  if certificate.commitment.step < s.agreedStep then .done none
  else if s.proposal = none then .done (some .notYet)
  else if s.proposalCommitment ≠ some certificate.commitment then
    .fail (.deliveryInvariant "verified certificate contradicts the staged proposal")
  else
    match s.certifyStep certificate with
    | .ok (next, certified) => .commit next (.stepSignature (some certified)) none
    | .error _ => .fail (.deliveryInvariant "verified certificate could not be committed")

def acceptDirect (s : ExecutionState κ) (source : PeerId) (seq : UInt64) (msg : Bytes)
    (attachment : Option Bytes) (reply : GuestReply) :
    Decision κ (Option ExecDeliveryRejection) :=
  if s.endPhase ≠ .open then .done none
  else
    match s.directArrival source seq with
    | .duplicate => .done none
    | .gap => .done (some .rejected)
    | .next =>
      if s.proposal.isSome = true ∨ s.status ≠ .active then .done (some .notYet)
      else (dispatchDirect s source seq msg attachment reply).map fun
        | .committed | .rejected _ => none
        | .frozen => some .notYet

def acceptAbort (s : ExecutionState κ) (occurrence : AbortOccurrence) :
    Decision κ (Option ExecDeliveryRejection) :=
  if occurrence.coordinate.nextStep < s.agreedStep then .done none
  else if s.agreedStep < occurrence.coordinate.nextStep then .done (some .notYet)
  else
    match s.stop occurrence with
    | .ok next => .commit next .state none
    | .error .sharedProposalSigned => .done (some .notYet)
    | .error .invalidAbortCoordinate => .done (some .conflict)
    | .error _ => .done (some .rejected)

/-- Classify one delivered frame; no rejection acknowledges it. -/
def acceptFrame (s : ExecutionState κ) (source : PeerId) (frame : ExecFrame)
    (reply : GuestReply) : Decision κ (Option ExecDeliveryRejection) :=
  if authenticates s source frame = false then .done (some .rejected)
  else if s.status.isTerminal then acceptTerminal s source frame
  else
    match frame with
    | .message commitment data => acceptMessage s source commitment data reply
    | .stepSignature commitment signature => acceptStepSignature s source commitment signature
    | .stepCertificate certificate => acceptStepCertificate s certificate
    | .direct seq msg attachment => acceptDirect s source seq msg attachment reply
    | .abort occurrence => acceptAbort s occurrence

/-! ## Sending -/

def deliverFrames (s : ExecutionState κ) (peer : PeerId) : List ExecFrame :=
  if peer = s.producer then []
  else if s.status.isTerminal then
    match s.endPhase.unconfirmed with
    | some unconfirmed => if peer ∈ unconfirmed then s.terminalEvidence.toList else []
    | none => []
  else s.currentFrames s.producer

/-- The direct message at the head of a peer's queue, not sent once ending. -/
def directHead (s : ExecutionState κ) (peer : PeerId) : Option DirectEntry :=
  if peer = s.producer ∨ s.status.isTerminal then none else (s.directQueue peer).head?

inductive Sent where
  | protocol (digest : FixedBytes 32)
  | direct (seq : UInt64)
  deriving DecidableEq

inductive SendOutcome where
  | acknowledged
  | refused (rejection : ExecDeliveryRejection)
  | failed
  deriving DecidableEq

def frameDigest (κ : Primitives) (frame : ExecFrame) : Option (FixedBytes 32) :=
  frame.toVec.map κ.blake3

/-- The digest is the one of the terminal evidence of this execution. -/
def isFinalFrame (s : ExecutionState κ) (digest : FixedBytes 32) : Bool :=
  match s.terminalEvidence with
  | some frame => frameDigest κ frame = some digest
  | none => false

def settleSend (s : ExecutionState κ) (peer : PeerId) (sent : Sent) (outcome : SendOutcome) :
    Decision κ Unit :=
  match sent, outcome with
  | .direct seq, .acknowledged | .direct seq, .refused .rejected | .direct seq, .refused .conflict =>
    match s.ackDirect peer seq with
    | .ok (some next) => .commit next .state ()
    | .ok none => .done ()
    | .error error => .fail (.ofProtocol error)
  | .protocol digest, .acknowledged =>
    if isFinalFrame s digest then confirmPeer s peer else .done ()
  | _, _ => .done ()

/-- The router's answer for a terminal execution without a live actor: an answer to the
sender, or the stream closes. -/
def routeExec (s : ExecutionState κ) (source : PeerId) (frame : ExecFrame) :
    Option (Option ExecDeliveryRejection) :=
  match s.endPhase with
  | .open => none
  | phase =>
    if authenticates s source frame = false then some (some .rejected)
    else if s.endConclusionMatches frame = .different then some (some .conflict)
    else
      match phase with
      | .open => none
      | .ended unconfirmed => if source ∈ unconfirmed then some (some .notYet) else some none
      | .ending unconfirmed => if source ∈ unconfirmed then none else some none

end Actor

end Arena0
