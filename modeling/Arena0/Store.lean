import Arena0.Encoding

/-!
# The execution store

The durable rows of one execution and the transaction that replaces its
aggregate together with the rows of the change: event records, agreed steps,
active timers and the published receipt.  A failed transaction writes nothing.
-/

namespace Arena0

open Borsh Fallible

variable {κ : Primitives}

inductive StoreError where
  | blobTooLarge (length : ℕ)
  | sqlite (message : String)
  | io (message : String)
  | protocol (error : ProtocolError)
  | corruption (message : String)
  | payloadTooLarge (required capacity : ℕ)
  | identityMismatch (database requested : PeerId)
  | blobNotFound (hash : BlobHash)
  | activationNotFound (executionId : ExecId)
  | executionRequestNotFound (executionId : ExecId)
  | executionLifecycleStarted (executionId : ExecId)
  | invalidAdmission (message : String)
  deriving DecidableEq

/-! ## Rows -/

structure EventRow where
  eventPosition : UInt64
  event : Bytes
  effects : Bytes
  eventDigest : FixedBytes 32
  deriving DecidableEq

structure AgreedRow where
  step : UInt64
  originEventPosition : UInt64
  version : UInt64
  artifact : Bytes
  entryHash : FixedBytes 32
  certifiedAtMs : UInt64
  postState : StateHash
  deriving DecidableEq

structure TimerRow where
  timerId : TimerId
  deadlineMs : UInt64
  payload : Bytes
  armedVersion : UInt64
  deriving DecidableEq

variable (κ) in
/-- The rows of one execution, with the receipts of the host. -/
structure Db where
  hostId : PeerId
  activation : Activation κ
  state : ExecutionState κ
  events : List EventRow
  agreedSteps : List AgreedRow
  timers : List TimerRow
  receipts : List (ReceiptArtifact κ)
  production : Option ReceiptId

variable (κ) in
/-- Durable consequences of a transition computed by the actor. -/
inductive Change where
  | state
  | dispatch (event : Event) (effects : List Effect) (timerId : Option TimerId)
  | stepSignature (certified : Option (SharedProposal κ))
  | publish (artifact : ReceiptArtifact κ)

def maxErrorBytes : ℕ := 4 * 1024
def maxTimerRecordBytes : ℕ := maxTimerPayloadBytes + maxTerminalReasonBytes + 16

def sqliteU64 (value : UInt64) : Except StoreError Unit :=
  ensure (value.toNat < 2 ^ 63)
    (.corruption "u64 value cannot be represented in SQLite INTEGER")

def encodeBorsh {α : Type} (codec : Codec α) (value : α) (field : String) :
    Except StoreError Bytes :=
  okOr (codec.toVec value) (.corruption s!"{field} encode: length exceeds bound")

def StopCause.reason : StopCause → String
  | .authenticated occurrence => occurrence.reason
  | .shared _ _ reason => reason

namespace Db

/-! ## Timers and effects -/

def timerDomain : Bytes := Codec.utf8 "arena0/timer/v2"

def timerLabelCodec : Codec (ExecId × UInt64 × UInt32) :=
  Id.codec.pair <| Codec.u64.pair Codec.u32

def timerIdOf (κ : Primitives) (executionId : ExecId) (eventPosition : UInt64) (ordinal : UInt32) :
    TimerId :=
  ⟨κ.blake3 (timerDomain ++ timerLabelCodec.encode (executionId, eventPosition, ordinal))⟩

/-- Arm one timer; an armed timer with the same evidence is left as it is. -/
def persistTimer (db : Db κ) (eventPosition version : UInt64) (ordinal : UInt32)
    (delayMs : UInt64) (timer : TimerPayload) (nowMs : UInt64) : Except StoreError (Db κ) := do
  let timerId := timerIdOf κ db.state.executionId eventPosition ordinal
  let deadlineMs ← okOr (checkedAdd nowMs delayMs) (.corruption "timer deadline overflows u64")
  let payload ← encodeBorsh TimerPayload.codec timer "timer payload"
  ensure (payload.length ≤ maxTimerRecordBytes) (.corruption "timer payload exceeds store bound")
  match db.timers.find? (·.timerId = timerId) with
  | some row => do
    ensure (row.deadlineMs = deadlineMs ∧ row.payload = payload ∧ row.armedVersion = version)
      (.corruption "timer identity was reused with different evidence")
    return db
  | none => do
    ensure (db.timers.length < maxActiveTimers)
      (.protocol (.collectionTooLarge "active timers" (db.timers.length + 1) maxActiveTimers))
    sqliteU64 deadlineMs
    sqliteU64 version
    return { db with timers := db.timers ++ [⟨timerId, deadlineMs, payload, version⟩] }

/-- Persist committed effects; only timers have rows of their own. -/
def persistEffects (db : Db κ) (eventPosition version nowMs : UInt64) :
    List (UInt32 × Effect) → Except StoreError (Db κ)
  | [] => .ok db
  | (ordinal, .setTimer delayMs timer) :: effects => do
    let db ← db.persistTimer eventPosition version ordinal delayMs timer nowMs
    db.persistEffects eventPosition version nowMs effects
  | _ :: effects => db.persistEffects eventPosition version nowMs effects

def consumeTimer (db : Db κ) (timerId : TimerId) : Except StoreError (Db κ) := do
  ensure ((db.timers.filter (·.timerId = timerId)).length = 1)
    (.corruption "timer consume compare-and-set failed")
  return { db with timers := db.timers.filter (·.timerId ≠ timerId) }

def dueTimers (db : Db κ) (nowMs : UInt64) : List TimerRow :=
  db.timers.filter (·.deadlineMs ≤ nowMs)

/-! ## Events and agreed steps -/

def dispatchDigest (κ : Primitives) (event effects : Bytes) : FixedBytes 32 :=
  κ.blake3 (Codec.utf8 "arena0/store/event/v2" ++ event ++ effects)

def insertEventRecord (db : Db κ) (eventPosition : UInt64) (event : Event)
    (effects : List Effect) : Except StoreError (Db κ) := do
  let event ← encodeBorsh Event.codec event "event"
  let effects ← encodeBorsh effectsCodec effects "effects"
  sqliteU64 eventPosition
  ensure (∀ row ∈ db.events, row.eventPosition ≠ eventPosition)
    (.sqlite "UNIQUE constraint failed: event_records.event_position")
  return { db with
    events := db.events ++ [⟨eventPosition, event, effects, dispatchDigest κ event effects⟩] }

def insertAgreedStep (db : Db κ) (originEventPosition version : UInt64) (entry : TraceEntry)
    (nowMs : UInt64) : Except StoreError (Db κ) := do
  let bytes ← encodeBorsh TraceEntry.codec entry "agreed entry"
  sqliteU64 entry.step
  sqliteU64 originEventPosition
  sqliteU64 version
  sqliteU64 nowMs
  ensure (∀ row ∈ db.agreedSteps, row.step ≠ entry.step)
    (.sqlite "UNIQUE constraint failed: agreed_steps.step")
  return { db with agreedSteps := db.agreedSteps ++
    [⟨entry.step, originEventPosition, version, bytes, entry.entryHash κ, nowMs, entry.postState⟩] }

/-- Store a certified proposal: its agreed step and the effects it released. -/
def commitStagedEvent (db : Db κ) (proposal : SharedProposal κ) (version nowMs : UInt64) :
    Except StoreError (Db κ) := do
  sqliteU64 proposal.eventPosition
  ensure (∃ row ∈ db.events, row.eventPosition = proposal.eventPosition)
    (.corruption "step signature did not find its event record")
  let db ← db.insertAgreedStep proposal.eventPosition version proposal.entry nowMs
  db.persistEffects proposal.eventPosition version nowMs proposal.effects

/-! ## Receipts -/

/-- Store an artifact under its identity; a session has one canonical receipt. -/
def insertArtifactRow (receipts : List (ReceiptArtifact κ)) (receipt : ReceiptArtifact κ)
    (nowMs : UInt64) : Except StoreError (List (ReceiptArtifact κ)) := do
  let bytes ← receipt.encode.mapError .protocol
  let decoded ← (ReceiptArtifact.decode (κ := κ) bytes).mapError .protocol
  ensure (decoded = receipt) (.corruption "receipt codec changed the artifact content")
  match receipts.find? (·.receiptId = receipt.receiptId) with
  | some row => do
    let payload ← row.encode.mapError .protocol
    ensure (payload = bytes ∧ row.body.header.sessionHash = receipt.body.header.sessionHash ∧
      row.kind = receipt.kind)
      (.corruption "receipt identity is already bound to different content")
    return receipts
  | none => do
    ensure (receipt.kind = .receipt → ∀ row ∈ receipts, row.kind = .receipt →
      row.body.header.sessionHash ≠ receipt.body.header.sessionHash)
      (.corruption "session already has a different canonical receipt")
    sqliteU64 nowMs
    return receipts ++ [receipt]

def insertArtifact (db : Db κ) (receipt : ReceiptArtifact κ) (nowMs : UInt64) :
    Except StoreError (Db κ) := do
  let receipts ← insertArtifactRow db.receipts receipt nowMs
  return { db with receipts }

def persistTerminalPublication (db : Db κ) (receipt : ReceiptArtifact κ) (nowMs : UInt64) :
    Except StoreError (Db κ) := do
  let db ← db.insertArtifact receipt nowMs
  match db.production with
  | some published => do
    ensure (published = receipt.receiptId)
      (.corruption "terminal publication identity was reused with different evidence")
    return db
  | none => return { db with production := some receipt.receiptId }

/-! ## The transaction -/

/-- The reason column of an aborted or failed execution is bounded. -/
def boundedReason (state : ExecutionState κ) : Except StoreError Unit :=
  if state.lifecycle = .aborted ∨ state.lifecycle = .failed then
    match state.status.terminalCause with
    | some cause => ensure (byteLen cause.reason ≤ maxErrorBytes)
        (.payloadTooLarge (byteLen cause.reason) maxErrorBytes)
    | none => .ok ()
  else .ok ()

def persistState (db : Db κ) (expected : UInt64) (next : ExecutionState κ) (nowMs : UInt64) :
    Except StoreError (Db κ) := do
  let _ ← next.encode.mapError .protocol
  boundedReason next
  sqliteU64 next.version
  sqliteU64 next.agreedStep
  sqliteU64 next.eventPosition
  sqliteU64 nowMs
  sqliteU64 expected
  ensure (db.state.version = expected) (.corruption "execution version moved")
  return { db with state := next }

def persistChange (db : Db κ) (next : ExecutionState κ) (change : Change κ) (nowMs : UInt64) :
    Except StoreError (Db κ) :=
  match change with
  | .state => .ok db
  | .dispatch event effects timerId => do
    ensure (next.eventPosition ≠ 0) (.corruption "dispatch event position is zero")
    let eventPosition := next.eventPosition - 1
    let db ← db.insertEventRecord eventPosition event effects
    let db ← match next.proposal with
      | none => do
        let indexed ← (indexedDispatchEffects effects).mapError fun _ =>
          StoreError.payloadTooLarge (2 ^ 32) (2 ^ 32 - 1)
        db.persistEffects eventPosition next.version nowMs indexed
      | some _ => .ok db
    match timerId with
    | some timerId => db.consumeTimer timerId
    | none => .ok db
  | .stepSignature (some proposal) => db.commitStagedEvent proposal next.version nowMs
  | .stepSignature none => .ok db
  | .publish artifact => db.persistTerminalPublication artifact nowMs

def persistInTransaction (db : Db κ) (expected : UInt64) (next : ExecutionState κ)
    (change : Change κ) (nowMs : UInt64) : Except StoreError (Db κ) := do
  ensure (next.executionId = db.state.executionId ∧ next.producer = db.hostId)
    (.corruption "transition execution binding mismatch")
  ensure (db.state.version = expected) (.corruption "execution version moved")
  let db ← db.persistState expected next nowMs
  db.persistChange next change nowMs

def create (hostId : PeerId) (receipts : List (ReceiptArtifact κ)) (executionId : ExecId)
    (activation : Activation κ) (producer : PeerId) (sharedState : SharedStateBytes)
    (localState : LocalStateBytes) (nowMs : UInt64) : Except StoreError (Db κ) := do
  let state ← (ExecutionState.new executionId activation producer sharedState localState).mapError
    .protocol
  ensure (state.producer = hostId) (.identityMismatch hostId state.producer)
  ensure (activation = state.binding.activation)
    (.corruption "execution binding does not match committed activation")
  let _ ← state.encode.mapError .protocol
  boundedReason state
  sqliteU64 state.version
  sqliteU64 state.agreedStep
  sqliteU64 state.eventPosition
  sqliteU64 nowMs
  return { hostId, activation, state, events := [], agreedSteps := [], timers := [], receipts,
           production := none }

/-! ## Assembling the receipt -/

/-- Check one row of the agreed trace at its index and read its entry. -/
def readAgreedRow (db : Db κ) (state : ExecutionState κ) (index : ℕ) (row : AgreedRow) :
    Except StoreError TraceEntry := do
  ensure (row.step.toNat = index) (.corruption "agreed steps are not gapless")
  ensure (∃ event ∈ db.events, event.eventPosition = row.originEventPosition)
    (.corruption "agreed step origin has no event record")
  ensure (row.version ≠ 0 ∧ row.version ≤ state.version)
    (.corruption "agreed step version is invalid")
  ensure (row.artifact.length ≤ maxTraceEntryBytes) (.corruption "durable envelope exceeds bound")
  let entry ← okOr (TraceEntry.codec.fromSlice row.artifact)
    (.corruption "agreed trace entry decode failed")
  ensure (entry.step = row.step ∧ entry.entryHash κ = row.entryHash ∧
    entry.postState = row.postState) (.corruption "agreed step index does not match entry")
  return entry

def readAgreedRows (db : Db κ) (state : ExecutionState κ) :
    ℕ → ℕ → List AgreedRow → Except StoreError (List TraceEntry × ℕ)
  | _, traceBytes, [] => .ok ([], traceBytes)
  | index, traceBytes, row :: rows => do
    let entry ← db.readAgreedRow state index row
    let encoded ← encodeBorsh TraceEntry.codec entry "trace size"
    let (trace, traceBytes) ←
      db.readAgreedRows state (index + 1) (traceBytes + encoded.length) rows
    return (entry :: trace, traceBytes)

/-- Every agreed entry in step order, checked against the cursor. -/
def loadAgreedTrace (db : Db κ) (state : ExecutionState κ) :
    Except StoreError (List TraceEntry) := do
  let rows := db.agreedSteps.insertionSort fun x y => x.step ≤ y.step
  let (trace, traceBytes) ← db.readAgreedRows state 0 0 rows
  ensure (trace.length = state.agreedStep.toNat ∧ traceBytes = state.traceBytes)
    (.corruption "agreed trace does not match execution cursor")
  return trace

def terminalOutcome (status : ExecutionStatus κ) : Option (TerminalOutcome κ) :=
  match status with
  | .certified outcome | .completed outcome _ => some outcome
  | _ => none

def receiptTermination (status : ExecutionStatus κ) : Except StoreError ReceiptTermination :=
  match status.terminalCause with
  | some cause => .ok (.stopped cause)
  | none =>
    match status with
    | .certified _ | .completed .. => .ok .completed
    | _ => .error (.protocol .invalidTerminalStatus)

def assembleTerminalArtifact (db : Db κ) (state : ExecutionState κ) :
    Except StoreError (ReceiptArtifact κ) := do
  let trace ← db.loadAgreedTrace state
  let termination ← receiptTermination state.status
  let outcome := ((terminalOutcome state.status).map (·.borsh)).getD []
  let body ← (ReceiptBody.new ⟨db.activation, termination⟩ outcome
    db.activation.offer.data.params.bytes trace).mapError .protocol
  (ReceiptArtifact.new body).mapError .protocol

def assembleReceipt (db : Db κ) (state : ExecutionState κ) :
    Except StoreError (ReceiptArtifact κ) := do
  ensure (state.executionId = db.state.executionId ∧ db.state.version = state.version)
    (.corruption "receipt assembly requires the committed execution version")
  db.assembleTerminalArtifact state

end Db

end Arena0
