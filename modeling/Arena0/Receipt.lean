import Arena0.Agreement

/-!
# Receipts

The portable evidence of a finished session: its body, the validation against
the activation it names, its identity and its bounded encoding.
-/

namespace Arena0

open Borsh Fallible

variable {κ : Primitives}

inductive ReceiptTermination where
  | completed
  | stopped (cause : StopCause)
  deriving DecidableEq

def ReceiptTermination.codec : Codec ReceiptTermination :=
  (Codec.enum (.cons Codec.unit (.last StopCause.codec))).equiv
  { toFun := fun
      | .inl _ => .completed
      | .inr cause => .stopped cause
    invFun := fun
      | .completed => .inl ()
      | .stopped cause => .inr cause
    left_inv := by rintro (_ | _) <;> rfl
    right_inv := by rintro (_ | _) <;> rfl }

variable (κ) in
/-- The activation a trace belongs to with its terminal classification. -/
structure SessionHeader where
  activation : Activation κ
  terminal : ReceiptTermination
  deriving DecidableEq

namespace SessionHeader

def programHash (h : SessionHeader κ) : ProgramHash := h.activation.offer.data.programHash

def sessionHash (h : SessionHeader κ) : SessionHash := h.activation.sessionHash

def codec : Codec (SessionHeader κ) :=
  ((Activation.codec (κ := κ)).pair ReceiptTermination.codec).equiv
  { toFun := fun (a, b) => ⟨a, b⟩
    invFun := fun h => (h.activation, h.terminal) }

end SessionHeader

variable (κ) in
/-- Portable evidence assembled from activation and trace rows. -/
structure ReceiptBody where
  header : SessionHeader κ
  outcome : Bytes
  params : Bytes
  trace : List TraceEntry
  deriving DecidableEq

def receiptBodyVersion : UInt8 := 5
def receiptVersion : UInt8 := 5

namespace ReceiptBody

def fieldsCodec : Codec (ReceiptBody κ) :=
  ((SessionHeader.codec (κ := κ)).pair <|
    outcomeBytesCodec.pair <| paramsCodec.pair <| traceCodec TraceEntry.codec).equiv
  { toFun := fun (a, b, c, d) => ⟨a, b, c, d⟩
    invFun := fun r => (r.header, r.outcome, r.params, r.trace) }

def encode (body : ReceiptBody κ) : Bytes := receiptBodyVersion :: fieldsCodec.encode body

def toVec (body : ReceiptBody κ) : Except ProtocolError Bytes :=
  okOr (if fieldsCodec.fits body then some body.encode else none)
    (.serialization "length exceeds bound")

theorem toVec_eq_ok {body : ReceiptBody κ} {bytes : Bytes} :
    body.toVec = .ok bytes ↔ fieldsCodec.fits body = true ∧ body.encode = bytes := by
  unfold toVec
  split <;> simp_all

def validateShape (body : ReceiptBody κ) : Except ProtocolError Unit := do
  let encoded ← body.toVec
  ensureEncoded "receipt body" encoded.length maxReceiptBytes
  ensure (body.trace.length ≤ maxReceiptTraceEntries)
    (.collectionTooLarge "receipt trace entries" body.trace.length maxReceiptTraceEntries)
  forAll validateTraceEntry body.trace
  match body.header.terminal with
  | .completed => .ok ()
  | .stopped cause => do
    cause.validate
    ensure (body.outcome = []) .outcomeProjectionMismatch

def new (header : SessionHeader κ) (outcome params : Bytes) (trace : List TraceEntry) :
    Except ProtocolError (ReceiptBody κ) := do
  ensurePayload "receipt outcome" outcome.length maxTerminalOutcomeBytes
  ensurePayload "receipt params" params.length maxParamsLen
  ensure (trace.length ≤ maxReceiptTraceEntries)
    (.collectionTooLarge "receipt trace entries" trace.length maxReceiptTraceEntries)
  let body : ReceiptBody κ := ⟨header, outcome, params, trace⟩
  body.validateShape
  return body

end ReceiptBody

/-! ## Validation against the activation -/

inductive ReceiptTraceTerminal where
  | completed (outcome : Bytes)
  | authenticated
  | stopped (kind : AbortKind) (reason : String)
  deriving DecidableEq

def checkFinalEntry (final : Option TraceEntry) :
    ReceiptTraceTerminal → Except ProtocolError Unit
  | .completed outcome => do
    let entry ← okOr final .receiptBodyMismatch
    ensure (entry.terminal = some (.end outcome)) .terminalTraceMismatch
  | .authenticated =>
    ensure (∀ entry ∈ final, entry.isTerminal = false) .terminalTraceMismatch
  | .stopped kind reason => do
    let entry ← okOr final .receiptBodyMismatch
    ensure (entry.terminal = some (match kind with
      | .abort => .abort reason
      | .fail => .fail reason)) .terminalTraceMismatch

def validateReceiptTrace (binding : ExecutionBinding κ) (trace : List TraceEntry)
    (terminal : ReceiptTraceTerminal) : Except ProtocolError StepCursor := do
  ensure (terminal = .authenticated ∨ trace ≠ []) .receiptBodyMismatch
  let cursor ← validateAgreedTrace binding trace
  checkFinalEntry trace.getLast? terminal
  return cursor

def validateStoppedReceipt (binding : ExecutionBinding κ) (body : ReceiptBody κ)
    (cause : StopCause) : Except ProtocolError Unit := do
  cause.validate
  match cause with
  | .authenticated occurrence => do
    occurrence.validateForSession binding.sessionId
    ensure (binding.isParticipant occurrence.sender = true) .unauthenticatedAbort
    let valid ← occurrence.verifySignature κ
    ensure (valid = true) .unauthenticatedAbort
    let cursor ← validateReceiptTrace binding body.trace .authenticated
    ensure (occurrence.coordinate = cursor) .invalidAbortCoordinate
  | .shared kind commitment reason => do
    let entry ← okOr body.trace.getLast? .receiptBodyMismatch
    ensure (entry.step = commitment.step ∧ entry.entryHash κ = commitment.entryHash)
      .receiptBodyMismatch
    let cursor ← validateReceiptTrace binding body.trace (.stopped kind reason)
    cause.validateBinding binding cursor

/-- Validate receipt identity, activation binding, ordered trace and terminal evidence. -/
def validateReceiptBody (binding : ExecutionBinding κ) (body : ReceiptBody κ) :
    Except ProtocolError Unit := do
  body.validateShape
  body.header.activation.validate.mapError .invalidActivation
  ensure (body.header.activation = binding.activation ∧
    body.header.sessionHash = binding.sessionId ∧
    body.header.programHash = binding.programHash ∧
    body.params = binding.activation.offer.data.params.bytes) .receiptBodyMismatch
  match body.header.terminal with
  | .completed => do
    let _ ← validateReceiptTrace binding body.trace (.completed body.outcome)
  | .stopped cause => validateStoppedReceipt binding body cause

/-! ## Artifacts -/

def ReceiptId.deriveBody (body : ReceiptBody κ) : Except ProtocolError ReceiptId := do
  let bytes ← body.toVec
  ensurePayload "receipt body" bytes.length maxReceiptBytes
  return ⟨κ.blake3 (Codec.utf8 "arena0/receipt/v5" ++ receiptVersion :: bytes)⟩

/-- The bytes of an artifact with this body, under the portable bound. -/
def encodeArtifact (body : ReceiptBody κ) : Except ProtocolError Bytes := do
  let bytes ← body.toVec
  ensurePayload "receipt" (receiptVersion :: bytes).length maxReceiptBytes
  return receiptVersion :: bytes

def authenticate (body : ReceiptBody κ) : Except ProtocolError ReceiptId := do
  let binding ← ExecutionBinding.new body.header.activation
  validateReceiptBody binding body
  let id ← ReceiptId.deriveBody body
  let _ ← encodeArtifact body
  return id

inductive ReceiptKind where
  | receipt | stopReport
  deriving DecidableEq

variable (κ) in
/-- An authenticated receipt or stop report. -/
structure ReceiptArtifact where
  body : ReceiptBody κ
  receiptId : ReceiptId
  authentic : authenticate body = .ok receiptId
  deriving DecidableEq

namespace ReceiptArtifact

def reservedReason : String := String.ofList (List.replicate maxTerminalReasonBytes 'x')

def reservedCommitment (binding : ExecutionBinding κ) : StepCommitment where
  domain := stepCommitDomain
  sessionId := binding.sessionId
  step := 0
  entryHash := 0
  preState := binding.activation.offer.data.initialState
  postState := binding.activation.offer.data.initialState
  link := chainStart

/-- The artifact size of an empty trace under a termination and an outcome. -/
def shapeLength (binding : ExecutionBinding κ) (terminal : ReceiptTermination) (outcome : Bytes) :
    Except ProtocolError ℕ := do
  let body : ReceiptBody κ :=
    ⟨⟨binding.activation, terminal⟩, outcome, binding.activation.offer.data.params.bytes, []⟩
  let bytes ← body.toVec
  return (receiptVersion :: bytes).length

/-- Reserve the largest empty-trace artifact of an activation. -/
def reservedOverhead (binding : ExecutionBinding κ) : Except ProtocolError ℕ := do
  let occurrence ← AbortOccurrence.unsigned binding.sessionId binding.firstSigner .fail 0
    reservedReason (genesisCursor binding)
  let completed ← shapeLength binding .completed (List.replicate maxTerminalOutcomeBytes 0)
  let authenticated ← shapeLength binding (.stopped (.authenticated occurrence)) []
  let shared ← shapeLength binding
    (.stopped (.shared .fail (reservedCommitment binding) reservedReason)) []
  return max (max completed authenticated) shared

def new (body : ReceiptBody κ) : Except ProtocolError (ReceiptArtifact κ) :=
  match h : authenticate body with
  | .ok id => .ok ⟨body, id, h⟩
  | .error error => .error error

/-- A unilateral stop is only a report; everything else is unanimously certified. -/
def kind (artifact : ReceiptArtifact κ) : ReceiptKind :=
  match artifact.body.header.terminal with
  | .stopped (.authenticated _) => .stopReport
  | _ => .receipt

def encode (artifact : ReceiptArtifact κ) : Except ProtocolError Bytes :=
  encodeArtifact artifact.body

/-- Read the two version bytes and the fields, check the shape and authenticate. -/
def decode (bytes : Bytes) : Except ProtocolError (ReceiptArtifact κ) := do
  ensurePayload "receipt" bytes.length maxReceiptBytes
  match bytes with
  | v :: w :: rest => do
    ensure (v = receiptVersion)
      (.deserialization s!"unsupported receipt version {v}; expected {receiptVersion}")
    ensure (w = receiptBodyVersion) (.deserialization s!"unknown receipt body version {w}")
    let body ← okOr (ReceiptBody.fieldsCodec.fromSlice rest) (.deserialization "malformed receipt")
    body.validateShape
    new body
  | _ => .error (.deserialization "malformed receipt")

end ReceiptArtifact

end Arena0
