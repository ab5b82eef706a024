import Arena0.Store

/-!
# Failures of an execution actor

The errors an actor reports and the texts they carry: a failed execution stops
with the text of its error as the reason.
-/

namespace Arena0

instance : ToString ExecLifecycle where
  toString
    | .negotiating => "Negotiating"
    | .activating => "Activating"
    | .waiting => "Waiting"
    | .active => "Active"
    | .completed => "Completed"
    | .aborted => "Aborted"
    | .failed => "Failed"

instance : ToString ActivationError where
  toString
    | .invalidOffer error => s!"invalid activation offer: {error}"
    | .ticketSetMismatch => "activation ticket set does not match the offer's ticket list"
    | .invalidOrdering => "activation ticket set is not in canonical order"
    | .withdrawnTicket hash => s!"activation ticket {hash} is not active"
    | .invalidTicket hash message => s!"activation ticket {hash} is invalid: {message}"
    | .invalidAttestations message =>
      s!"activation collective signature failed verification: {message}"

instance : ToString ProtocolError where
  toString
    | .directQueueFull recipient => s!"direct queue is full for {recipient}"
    | .directOutOfOrder source seq => s!"direct message {seq} from {source} is out of order"
    | .directFromAgreedEvent => "an agreed event cannot send direct messages"
    | .illegalLifecycle current event => s!"event {event} is illegal while execution is {current}"
    | .invalidActivation error => s!"invalid activation: {error}"
    | .bindingMismatch => "execution binding does not match its activation"
    | .unknownParticipant participant => s!"unknown participant {participant}"
    | .versionExhausted => "execution version exhausted"
    | .agreedStepExhausted => "agreed step exhausted"
    | .stepCoordinateMismatch expected actual =>
      s!"step coordinate mismatch: expected {expected}, got {actual}"
    | .agreedPreStateMismatch .. => "agreed pre-state mismatch"
    | .agreedChainMismatch => "agreed commitment chain link mismatch"
    | .stateHashMismatch => "shared state hash mismatch"
    | .sharedProposalExists => "a shared proposal is already pending"
    | .sharedProposalSigned => "the stop sender has already signed the pending shared proposal"
    | .sharedProposalMissing => "no shared proposal is pending"
    | .traceVersionMismatch actual expected =>
      s!"unsupported trace version {actual}, expected {expected}"
    | .missingSessionStart => "step zero is missing SessionStarted"
    | .sessionStartPosition => "SessionStarted is only legal at step zero"
    | .sessionStartMismatch => "SessionStarted ensemble does not match the activation"
    | .traceEntryTooLarge actual max => s!"trace entry is {actual} bytes; maximum is {max}"
    | .collectionTooLarge kind actual max => s!"{kind} has {actual} items; maximum is {max}"
    | .invalidStepSignature participant step =>
      s!"signature for {participant} does not match step {step}"
    | .duplicateStepSignature participant => s!"duplicate step signature from {participant}"
    | .conflictingStepSignature participant => s!"conflicting step signature from {participant}"
    | .incompleteProof actual expected => s!"proof has {actual} signatures; expected {expected}"
    | .receiptBudgetExhausted step => s!"receipt budget exhausted at step {step}"
    | .invalidCertificate message => s!"invalid proof certificate: {message}"
    | .receiptBodyMismatch =>
      "receipt body does not match the execution binding or terminal evidence"
    | .invalidAbortOccurrence => "invalid execution abort occurrence"
    | .invalidAbortSignature message => s!"invalid execution abort signature: {message}"
    | .invalidAbortCoordinate => "invalid execution abort coordinate"
    | .unauthenticatedAbort => "execution abort occurrence is not activation-authenticated"
    | .terminalTraceMismatch => "receipt trace does not match terminal evidence"
    | .invalidOutcomeProjection message =>
      s!"invalid terminal outcome JSON projection: {message}"
    | .terminalOutcomeRequired =>
      "successful terminal entry requires a complete outcome projection"
    | .terminalOutcomeMismatch => "terminal outcome projection does not match the shared entry"
    | .outcomeProjectionMismatch =>
      "terminal outcome Borsh bytes do not match the SessionEnd effect"
    | .calloutMismatch => "dispatch does not match the open callout"
    | .invalidCalloutState => "open callout requires an active execution status"
    | .terminalAlreadyPublished => "terminal evidence is already published"
    | .invalidTerminalStatus => "durable terminal status is invalid or inconsistent"
    | .multipleTerminalEffects => "trace entry contains multiple terminal effects"
    | .alreadyTerminal => "execution is terminal"
    | .localSharedChange => "a local event may not change the agreed shared state"
    | .outgoingQueueFull actual max =>
      s!"outgoing message queue has {actual} entries; maximum is {max}"
    | .notQueuedMessage => "authored message is not the head of the outgoing queue"
    | .payloadTooLarge kind actual max => s!"{kind} is {actual} bytes; maximum is {max}"
    | .encodedTooLarge kind actual max => s!"{kind} is {actual} bytes; maximum is {max}"
    | .serialization message => s!"protocol serialization failed: {message}"
    | .deserialization message => s!"protocol deserialization failed: {message}"

instance : ToString StoreError where
  toString
    | .blobTooLarge length => s!"blob length {length} exceeds the maximum"
    | .sqlite message => s!"sqlite error: {message}"
    | .io message => s!"store I/O error: {message}"
    | .protocol error => s!"protocol error: {error}"
    | .corruption message => s!"store corruption: {message}"
    | .payloadTooLarge required capacity =>
      s!"store payload requires {required} bytes, limit is {capacity}"
    | .identityMismatch database requested =>
      s!"store identity mismatch: database belongs to {database}, requested {requested}"
    | .blobNotFound hash => s!"no such blob {hash}"
    | .activationNotFound executionId => s!"activation for execution {executionId} was not found"
    | .executionRequestNotFound executionId => s!"execution request {executionId} was not found"
    | .executionLifecycleStarted executionId =>
      s!"execution {executionId} has already entered activation"
    | .invalidAdmission message => s!"invalid execution admission: {message}"

inductive ExecError where
  | calloutNotPending
  | inputRejected (message : String)
  | diverged (message : String)
  | outgoingQueueOverflow
  | receiptBudgetExhausted (step : UInt64)
  | agreementPending
  | invalidState (message : String)
  | deliveryInvariant (message : String)
  | unavailable (message : String)
  deriving DecidableEq

namespace ExecError

instance : ToString ExecError where
  toString
    | .calloutNotPending => "callout is no longer pending"
    | .inputRejected message => s!"callout answer rejected: {message}"
    | .diverged message => message
    | .outgoingQueueOverflow => "outgoing queue overflow"
    | .receiptBudgetExhausted step => s!"receipt budget exhausted at step {step}"
    | .agreementPending => "execution is waiting for shared agreement; input was not consumed"
    | .invalidState message => s!"invalid execution state: {message}"
    | .deliveryInvariant message => s!"execution delivery invariant failed: {message}"
    | .unavailable message => s!"execution resource unavailable: {message}"

def ofProtocol : ProtocolError → ExecError
  | .receiptBudgetExhausted step => .receiptBudgetExhausted step
  | error => .invalidState (toString error)

def ofStore : StoreError → ExecError
  | .protocol (.receiptBudgetExhausted step) => .receiptBudgetExhausted step
  | error => .unavailable (toString error)

end ExecError

end Arena0
