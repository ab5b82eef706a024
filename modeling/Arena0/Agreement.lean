import Arena0.Status

/-!
# Agreement over the trace

Signature and certificate checks over a step commitment, the checks of one
entry at its position, and the validation of a whole certified trace.
-/

namespace Arena0

open Borsh Fallible

variable {κ : Primitives}

/-! ## Signatures and certificates -/

structure StepSig where
  step : UInt64
  sig : BlsSignature
  deriving DecidableEq

structure ParticipantStepSignature where
  participant : PeerId
  signature : StepSig
  deriving DecidableEq

def ParticipantStepSignature.new (participant : PeerId) (step : UInt64) (sig : BlsSignature) :
    ParticipantStepSignature := ⟨participant, ⟨step, sig⟩⟩

def verifyStepSignature (κ : Primitives) (key : BlsPublicKey) (commitment : StepCommitment)
    (signature : ParticipantStepSignature) : Except ProtocolError Unit := do
  ensure (signature.signature.step = commitment.step)
    (.invalidStepSignature signature.participant commitment.step)
  let valid ← (κ.blsVerify key commitment.signingBytes signature.signature.sig).mapError fun error =>
    .invalidCertificate (toString error)
  ensure (valid = true) (.invalidStepSignature signature.participant commitment.step)

/-- Verify an N-of-N aggregate over an exact commitment; the keys are in participant order. -/
def verifyFullAgreement (κ : Primitives) (agreement : AggregateAttestation)
    (commitment : StepCommitment) (keys : List BlsPublicKey) : Except ProtocolError Unit := do
  ensure (agreement.signers.count = keys.length ∧ agreement.signers.isFull keys.length = true)
    (.incompleteProof agreement.signers.count keys.length)
  (agreement.verifySignatures κ commitment.step commitment.signingBytes keys).mapError fun error =>
    .invalidCertificate (toString error)

structure StepCertificate where
  commitment : StepCommitment
  agreement : AggregateAttestation
  deriving DecidableEq

def StepCertificate.verify (certificate : StepCertificate) (binding : ExecutionBinding κ) :
    Except ProtocolError Unit := do
  ensure (certificate.commitment.isBoundTo binding.sessionId = true)
    (.invalidCertificate "step certificate binding mismatch")
  let keys ← binding.participantBlsKeys
  verifyFullAgreement κ certificate.agreement certificate.commitment keys

/-! ## Entries -/

def validateTerminal : StepTerminal → Except ProtocolError Unit
  | .end outcome => ensurePayload "terminal outcome" outcome.length maxTerminalOutcomeBytes
  | .abort reason | .fail reason =>
    ensurePayload "terminal reason" (byteLen reason) maxTerminalReasonBytes

def validateTraceEntry (entry : TraceEntry) : Except ProtocolError Unit := do
  ensure (entry.traceVersion = traceFormatVersion)
    (.traceVersionMismatch entry.traceVersion traceFormatVersion)
  let encoded ← okOr (TraceEntry.codec.toVec entry) (.serialization "length exceeds bound")
  ensure (encoded.length ≤ maxTraceEntryBytes)
    (.traceEntryTooLarge encoded.length maxTraceEntryBytes)
  match entry.event with
  | .sessionStarted _ => .ok ()
  | .message _ data => ensurePayload "message payload" data.length maxEffectPayloadBytes
  match entry.terminal with
  | some terminal => validateTerminal terminal
  | none => .ok ()

def validateSharedEntry (binding : ExecutionBinding κ) (expectedStep : UInt64)
    (entry : TraceEntry) : Except ProtocolError Unit := do
  validateTraceEntry entry
  ensure (entry.step = expectedStep) (.stepCoordinateMismatch expectedStep entry.step)
  match entry.event with
  | .sessionStarted ensemble => do
    ensure (expectedStep = 0) .sessionStartPosition
    let expected ← binding.ensemble.mapError fun error =>
      ProtocolError.invalidCertificate (toString error)
    ensure (ensemble = expected) .sessionStartMismatch
  | .message source _ => do
    ensure (expectedStep ≠ 0) .missingSessionStart
    let _ ← binding.participantKey source

/-! ## Certified traces -/

def genesisCursor (binding : ExecutionBinding κ) : StepCursor :=
  ⟨0, binding.activation.offer.data.initialState, chainStart⟩

/-- Check one entry against the cursor and move over it; only a last entry may be terminal. -/
def validateAgreedEntry (binding : ExecutionBinding κ) (keys : List BlsPublicKey)
    (cursor : StepCursor) (entry : TraceEntry) (last : Bool) :
    Except ProtocolError StepCursor := do
  validateSharedEntry binding cursor.nextStep entry
  let commitment := StepCommitment.forEntry κ binding.sessionId entry cursor.chainHash
  let next ← (cursor.advance κ commitment).mapError fun _ => ProtocolError.receiptBodyMismatch
  verifyFullAgreement κ entry.agreement commitment keys
  ensure (last = true ∨ entry.isTerminal = false) .terminalTraceMismatch
  return next

def validateAgreedLoop (binding : ExecutionBinding κ) (keys : List BlsPublicKey) :
    StepCursor → List TraceEntry → Except ProtocolError StepCursor
  | cursor, [] => .ok cursor
  | cursor, entry :: rest => do
    let next ← validateAgreedEntry binding keys cursor entry rest.isEmpty
    validateAgreedLoop binding keys next rest

/-- Validate a certified trace from the genesis state and return the cursor after it. -/
def validateAgreedTrace (binding : ExecutionBinding κ) (trace : List TraceEntry) :
    Except ProtocolError StepCursor := do
  let keys ← binding.participantBlsKeys
  validateAgreedLoop binding keys (genesisCursor binding) trace

end Arena0
