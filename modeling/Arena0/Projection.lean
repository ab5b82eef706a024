import Arena0.DurableState
import Arena0.Envelope
import Arena0.Ledger

/-!
# The projections of an execution

The scalar columns beside an encoded aggregate, the checks that opening a
database and loading an execution run over its rows, and a database of several
executions with the actors that write to it and the artifacts of other hosts
that are imported.  A failed transaction writes nothing, and a crash loses only
the live copy of an aggregate.
-/

namespace Arena0

open Borsh Fallible

variable {κ : Primitives}

def ExecLifecycle.isTerminal : ExecLifecycle → Bool
  | .completed | .aborted | .failed => true
  | _ => false

/-! ## Columns -/

structure StateColumns where
  participantIds : Bytes
  participants : ℕ
  calloutId : Option UInt64
  calloutIndex : Option UInt32
  terminalReason : Option String
  outcomeJson : Option Bytes
  deriving DecidableEq

def participantIdsCodec : Codec (List PeerId) := Codec.vec _ Id.codec u32Max_lt

def StateColumns.of (state : ExecutionState κ) : Except StoreError StateColumns := do
  let participantIds ← encodeBorsh participantIdsCodec state.binding.participants
    "participant index"
  Db.boundedReason state
  return {
    participantIds
    participants := state.binding.activation.tickets.length
    calloutId := state.callout.map (·.id)
    calloutIndex := state.callout.map (·.calloutIndex)
    terminalReason :=
      if state.lifecycle = .aborted ∨ state.lifecycle = .failed then
        state.status.terminalCause.map (·.reason)
      else none
    outcomeJson :=
      if state.lifecycle = .completed then (Db.terminalOutcome state.status).map (·.json)
      else none }

/-- The end phase as a tag and the peers that have not confirmed. -/
def endColumns : EndPhase → ℕ × Bytes
  | .open => (0, peerSetCodec.encode ∅)
  | .ending unconfirmed => (1, peerSetCodec.encode unconfirmed)
  | .ended unconfirmed => (2, peerSetCodec.encode unconfirmed)

def decodeEnd (tag : ℕ) (bytes : Bytes) : Except StoreError EndPhase := do
  ensure (bytes.length ≤ 4 + maxParticipants * 32)
    (.corruption "end peer set exceeds participant bound")
  let unconfirmed ← okOr (peerSetCodec.fromSlice bytes) (.corruption "end peer set decode failed")
  match tag with
  | 0 => if unconfirmed = ∅ then .ok .open else .error (.corruption "invalid end phase projection")
  | 1 =>
    if unconfirmed = ∅ then .error (.corruption "invalid end phase projection")
    else .ok (.ending unconfirmed)
  | 2 => .ok (.ended unconfirmed)
  | _ => .error (.corruption "invalid end phase projection")

structure ExecutionRow where
  executionId : ExecId
  hostId : PeerId
  producer : PeerId
  sessionId : SessionHash
  state : Bytes
  version : UInt64
  lifecycle : ExecLifecycle
  agreedStep : UInt64
  eventPosition : UInt64
  endPhase : ℕ × Bytes
  summary : StateColumns
  calloutOpenedAtMs : Option UInt64
  lastStepAtMs : Option UInt64

namespace ExecutionRow

def insertExecution (hostId : PeerId) (state : ExecutionState κ) (nowMs : UInt64) :
    Except StoreError ExecutionRow := do
  let bytes ← state.encode.mapError .protocol
  let summary ← StateColumns.of state
  let sealed ← DurableEnvelope.«seal» κ .executionState bytes
  return {
    executionId := state.executionId
    hostId
    producer := state.producer
    sessionId := state.binding.sessionId
    state := sealed
    version := state.version
    lifecycle := state.lifecycle
    agreedStep := state.agreedStep
    eventPosition := state.eventPosition
    endPhase := endColumns state.endPhase
    summary
    calloutOpenedAtMs := state.callout.map fun _ => nowMs
    lastStepAtMs := none }

/-- Replace what the next aggregate determines; a callout keeps the time it was opened. -/
def persistState (row : ExecutionRow) (next : ExecutionState κ) (nowMs : UInt64) :
    Except StoreError ExecutionRow := do
  let bytes ← next.encode.mapError .protocol
  let summary ← StateColumns.of next
  let sealed ← DurableEnvelope.«seal» κ .executionState bytes
  return { row with
    state := sealed
    version := next.version
    lifecycle := next.lifecycle
    agreedStep := next.agreedStep
    eventPosition := next.eventPosition
    endPhase := endColumns next.endPhase
    summary
    calloutOpenedAtMs :=
      match summary.calloutId with
      | none => none
      | some id => if row.summary.calloutId = some id then row.calloutOpenedAtMs else some nowMs }

end ExecutionRow

/-! ## Executions with their rows -/

variable (κ) in
/-- One execution: its actor and record rows, its column row and its step states. -/
structure Execution where
  host : Host κ
  row : ExecutionRow
  stepStates : List (UInt64 × SharedStateBytes)

def Host.proposes (keys : Actor.HostKeys) (h : Host κ) (nowMs : UInt64) (input : Input) :
    Option (ExecutionState κ × ExecutionState κ × Change κ) :=
  match h.live with
  | none => none
  | some s =>
    match Actor.handle keys h.db s nowMs input with
    | .commit next change _ => some (s, next, change)
    | _ => none

namespace Execution

def withReceipts (e : Execution κ) (receipts : List (ReceiptArtifact κ)) : Execution κ :=
  { e with host := { e.host with db := { e.host.db with receipts := receipts } } }

/-- One transaction over the rows of an execution; `others` are the receipts that other
executions produced. -/
def persist (e : Execution κ) (others : List ReceiptId) (expected : UInt64)
    (next : ExecutionState κ) (change : Change κ) (nowMs : UInt64) :
    Except StoreError (Db κ × ExecutionRow × List (UInt64 × SharedStateBytes)) := do
  let db ← e.host.db.persistInTransaction expected next change nowMs
  ensure (db.production = e.host.db.production ∨ ∀ id ∈ db.production, id ∉ others)
    (.corruption "receipt is already produced by another execution")
  let row ← e.row.persistState next nowMs
  match change with
  | .stepSignature (some proposal) =>
    return (db, { row with lastStepAtMs := some nowMs },
      e.stepStates ++ [(proposal.entry.step, proposal.sharedState)])
  | _ => return (db, row, e.stepStates)

/-- Take one input; a transaction that fails is rolled back and the aggregate reloaded. -/
def step (keys : Actor.HostKeys) (others : List ReceiptId) (e : Execution κ) (nowMs : UInt64)
    (input : Input) : Execution κ :=
  match e.host.proposes keys nowMs input with
  | none => { e with host := (e.host.handle keys nowMs input).1 }
  | some (s, next, change) =>
    match e.persist others s.version next change nowMs with
    | .ok (db, row, stepStates) =>
      ⟨⟨db, some next, ⟨s, input, next⟩ :: e.host.journal⟩, row, stepStates⟩
    | .error _ => { e with host := { e.host with live := some e.host.db.state } }

end Execution

variable (κ) in
/-- The executions and artifacts of a Host; `imports` are the receipts that were imported. -/
structure Database where
  hostId : PeerId
  executions : OrdMap ExecId (Execution κ)
  receipts : List (ReceiptArtifact κ)
  imports : List ReceiptId

variable (κ) in
inductive StoreAction where
  | createExecution (executionId : ExecId) (activation : Activation κ) (producer : PeerId)
      (sharedState : SharedStateBytes) (localState : LocalStateBytes) (nowMs : UInt64)
  | actor (executionId : ExecId) (nowMs : UInt64) (input : Input)
  | importReceipt (receipt : ReceiptArtifact κ) (nowMs : UInt64)

inductive ReceiptProvenance where
  | produced | imported | both
  deriving DecidableEq

def ReceiptProvenance.fromFacts : (imported produced : Bool) → Option ReceiptProvenance
  | false, true => some .produced
  | true, false => some .imported
  | true, true => some .both
  | false, false => none

variable (κ) in
structure StoredReceipt where
  receiptId : ReceiptId
  provenance : ReceiptProvenance
  receipt : ReceiptArtifact κ

inductive ReceiptImportOutcome where
  | imported | alreadyImported | alreadyProduced
  deriving DecidableEq

def openColumn (κ : Primitives) (kind : EnvelopeKind) (payload : Bytes) (max : ℕ) :
    Except StoreError Bytes := do
  let encoded ← DurableEnvelope.«seal» κ kind payload
  DurableEnvelope.«open» κ kind encoded max

namespace Database

def empty (hostId : PeerId) : Database κ := ⟨hostId, .empty, [], []⟩

def producedByOthers (d : Database κ) (executionId : ExecId) : List ReceiptId :=
  d.executions.entries.filterMap fun p =>
    if p.1 = executionId then none else p.2.host.db.production

/-- Create an execution; an identity that exists already is never written again.  The committed
activation has a row of its own, and there is one for each session. -/
def createExecution (d : Database κ) (executionId : ExecId) (activation : Activation κ)
    (producer : PeerId) (sharedState : SharedStateBytes) (localState : LocalStateBytes)
    (nowMs : UInt64) : Except StoreError (Database κ) := do
  let db ← Db.create d.hostId d.receipts executionId activation producer sharedState localState
    nowMs
  match d.executions.get? executionId with
  | some _ => return d
  | none => do
    ensure (∀ p ∈ d.executions.entries, p.2.row.sessionId ≠ db.state.binding.sessionId)
      (.sqlite "UNIQUE constraint failed: activation_records.session_id")
    let row ← ExecutionRow.insertExecution d.hostId db.state nowMs
    return { d with executions := d.executions.insert executionId ⟨.initial db, row, []⟩ }

def actor (keys : Actor.HostKeys) (d : Database κ) (executionId : ExecId) (nowMs : UInt64)
    (input : Input) : Database κ :=
  match d.executions.get? executionId with
  | none => d
  | some e =>
    let e := (e.withReceipts d.receipts).step keys (d.producedByOthers executionId) nowMs input
    { d with executions := d.executions.insert executionId e, receipts := e.host.db.receipts }

def receiptProduction (d : Database κ) (receiptId : ReceiptId) : Option ExecId :=
  (d.executions.entries.find? fun p => p.2.host.db.production = some receiptId).map (·.1)

/-- Read an artifact back with its provenance; a produced one must belong to an ended execution of
its session. -/
def decodeStoredReceipt (d : Database κ) (stored : ReceiptArtifact κ) :
    Except StoreError (StoredReceipt κ × Option ExecId) := do
  let bytes ← stored.encode.mapError .protocol
  let payload ← openColumn κ .receipt bytes maxReceiptBytes
  let receipt ← (ReceiptArtifact.decode (κ := κ) payload).mapError fun error =>
    StoreError.corruption s!"receipt decode: {error}"
  ensure (receipt.receiptId = stored.receiptId ∧
    receipt.body.header.sessionHash = stored.body.header.sessionHash ∧
    receipt.kind = stored.kind) (.corruption "receipt indexes do not match its artifact")
  let production := d.receiptProduction receipt.receiptId
  ensure (∀ executionId ∈ production, ∃ e ∈ d.executions.get? executionId,
    e.row.sessionId = receipt.body.header.sessionHash ∧ e.row.producer = d.hostId ∧
      e.row.endPhase.1 ≠ 0) (.corruption "produced receipt is not bound to its Host execution")
  let provenance ← okOr
    (ReceiptProvenance.fromFacts (d.imports.contains receipt.receiptId) production.isSome)
    (.corruption "receipt artifact has no provenance fact")
  return (⟨receipt.receiptId, provenance, receipt⟩, production)

def loadReceiptById (d : Database κ) (receiptId : ReceiptId) :
    Except StoreError (Option (StoredReceipt κ)) :=
  match d.receipts.find? (·.receiptId = receiptId) with
  | none => .ok none
  | some row => do
    let (stored, _) ← d.decodeStoredReceipt row
    ensure (stored.receiptId = receiptId)
      (.corruption "receipt id lookup returned a different artifact")
    return some stored

/-- Store an artifact that came from another Host and the fact that it was imported. -/
def importReceipt (d : Database κ) (receipt : ReceiptArtifact κ) (nowMs : UInt64) :
    Except StoreError (Database κ × ReceiptImportOutcome) := do
  let stored ← d.loadReceiptById receipt.receiptId
  ensure (∀ row ∈ stored, row.receipt = receipt)
    (.corruption "receipt identity is already bound to different content")
  let receipts ← Db.insertArtifactRow d.receipts receipt nowMs
  if d.imports.contains receipt.receiptId then
    return ({ d with receipts := receipts }, .alreadyImported)
  else do
    sqliteU64 nowMs
    return ({ d with receipts := receipts, imports := d.imports ++ [receipt.receiptId] },
      if stored.isSome then .alreadyProduced else .imported)

def step (keys : Actor.HostKeys) (d : Database κ) : StoreAction κ → Database κ
  | .createExecution executionId activation producer sharedState localState nowMs =>
    match d.createExecution executionId activation producer sharedState localState nowMs with
    | .ok next => next
    | .error _ => d
  | .actor executionId nowMs input => d.actor keys executionId nowMs input
  | .importReceipt receipt nowMs =>
    match d.importReceipt receipt nowMs with
    | .ok (next, _) => next
    | .error _ => d

def run (keys : Actor.HostKeys) (d : Database κ) (actions : List (StoreAction κ)) : Database κ :=
  actions.foldl (step keys) d

end Database

/-! ## The checks -/

namespace Db

def validateEventRow (κ : Primitives) (count : ℕ) (row : EventRow) : Except StoreError Unit := do
  ensure (row.eventPosition.toNat = count) (.corruption "event positions are not gapless")
  ensure (count + 1 < 2 ^ 64) (.corruption "event count overflow")
  let event ← openColumn κ .eventRecord row.event maxExecutionStateBytes
  let effects ← openColumn κ .effects row.effects maxReceiptBytes
  let _ ← okOr (Event.codec.fromSlice event) (.corruption "event record event decode failed")
  let decoded ← okOr (effectsCodec.fromSlice effects)
    (.corruption "event record effects decode failed")
  (checkEffectBudget decoded).mapError .protocol
  ensure (dispatchDigest κ event effects = row.eventDigest) (.corruption "event digest mismatch")

def validateEventLoop (κ : Primitives) : ℕ → List EventRow → Except StoreError ℕ
  | count, [] => .ok count
  | count, row :: rows => do
    validateEventRow κ count row
    validateEventLoop κ (count + 1) rows

/-- The event records are gapless, end at the event position and pair with the proposal. -/
def validateEventRows (db : Db κ) (state : ExecutionState κ) : Except StoreError Unit := do
  let rows := db.events.insertionSort fun x y => x.eventPosition ≤ y.eventPosition
  let count ← validateEventLoop κ 0 rows
  ensure (count = state.eventPosition.toNat)
    (.corruption "event records do not match execution position")
  match state.proposal with
  | none => .ok ()
  | some proposal => do
    ensure (count ≠ 0) (.corruption "pending proposal has no originating event record")
    ensure (proposal.eventPosition.toNat = count - 1)
      (.corruption "pending proposal is not paired with the last event record")

def validateTimerRow (κ : Primitives) (version : UInt64) (row : TimerRow) :
    Except StoreError Unit := do
  let payload ← openColumn κ .timer row.payload maxTimerRecordBytes
  let timer ← okOr (TimerPayload.codec.fromSlice payload)
    (.corruption "timer payload decode failed")
  ensure (byteLen timer.typeName ≤ maxTerminalReasonBytes ∧
    timer.data.length ≤ maxTimerPayloadBytes) (.corruption "timer payload exceeds bounds")
  ensure (row.armedVersion ≠ 0 ∧ row.armedVersion ≤ version)
    (.corruption "timer version is invalid")

def validateTimerRows (db : Db κ) (state : ExecutionState κ) : Except StoreError Unit :=
  forAll (validateTimerRow κ state.version) db.timers

end Db

namespace Execution

def latestCertification (e : Execution κ) (state : ExecutionState κ) :
    Except StoreError (Option UInt64) :=
  if state.agreedStep = 0 then .ok none
  else do
    let row ← okOr (e.host.db.agreedSteps.find? (·.step = state.agreedStep - 1))
      (.corruption "latest agreed step is missing")
    return some row.certifiedAtMs

def validateStateIndexes (e : Execution κ) (state : ExecutionState κ) :
    Except StoreError Unit := do
  let phase ← decodeEnd e.row.endPhase.1 e.row.endPhase.2
  ensure (phase = state.endPhase) (.corruption "end phase index does not match state")
  ensure (e.row.version = state.version ∧ e.row.lifecycle = state.lifecycle ∧
    e.row.agreedStep = state.agreedStep ∧ e.row.eventPosition = state.eventPosition)
    (.corruption "execution scheduling index does not match state")
  let expected ← StateColumns.of state
  let latest ← e.latestCertification state
  ensure (e.row.summary = expected ∧
    e.row.calloutOpenedAtMs.isSome = e.row.summary.calloutId.isSome ∧
    e.row.lastStepAtMs = latest) (.corruption "execution summary indexes do not match state")

def decodeStateRow (e : Execution κ) : Except StoreError (ExecutionState κ) := do
  let payload ← DurableEnvelope.«open» κ .executionState e.row.state maxExecutionStateBytes
  let state ← (ExecutionState.decode payload).mapError .protocol
  ensure (state.executionId = e.row.executionId ∧ state.producer = e.row.producer ∧
    state.binding.sessionId = e.row.sessionId)
    (.corruption "execution index does not match decoded state")
  e.validateStateIndexes state
  return state

/-- The agreed trace, authenticated against the cursor of the aggregate. -/
def validateAgreedRows (e : Execution κ) (state : ExecutionState κ) :
    Except StoreError (List TraceEntry) := do
  let trace ← e.host.db.loadAgreedTrace state
  ensure (e.stepStates.length = trace.length)
    (.corruption "step states do not match agreed trace")
  let cursor ← (validateAgreedTrace state.binding trace).mapError fun error =>
    StoreError.corruption s!"agreed trace: {error}"
  ensure (cursor.stateHash = state.agreedState ∧ cursor.chainHash = state.agreedLink)
    (.corruption "agreed trace does not match execution cursor")
  return trace

end Execution

namespace Database

/-- The publication rows against the status, without reading artifacts. -/
def validateTerminalRelation (d : Database κ) (e : Execution κ) (state : ExecutionState κ) :
    Except StoreError Unit := do
  ensure (e.host.db.production.isSome = state.status.publishedReceiptId.isSome)
    (.corruption "terminal publication rows do not match execution status")
  match state.status.publishedReceiptId with
  | none => .ok ()
  | some receiptId =>
    ensure (e.host.db.production = some receiptId ∧ ∃ receipt ∈ d.receipts,
      receipt.receiptId = receiptId ∧
        receipt.body.header.sessionHash = state.binding.sessionId)
      (.corruption "published receipt relation does not match execution state")

/-- The publication rows against the agreed trace, artifact content and outcome included. -/
def validateTerminalRows (d : Database κ) (e : Execution κ) (state : ExecutionState κ)
    (trace : List TraceEntry) : Except StoreError Unit := do
  d.validateTerminalRelation e state
  match state.status.publishedReceiptId with
  | none => .ok ()
  | some receiptId => do
    let row ← okOr (d.receipts.find? (·.receiptId = receiptId))
      (.corruption "published receipt row is missing")
    let (stored, production) ← d.decodeStoredReceipt row
    let receipt := stored.receipt
    ensure (production = some state.executionId ∧
      receipt.body.header.activation = state.binding.activation ∧ state.producer = d.hostId)
      (.corruption "terminal record does not match published execution state")
    ensure (receipt.body.trace = trace)
      (.corruption "receipt trace does not match durable public commits")
    match receipt.body.header.terminal with
    | .completed => do
      let outcome ← okOr (Db.terminalOutcome state.status)
        (.corruption "completed receipt has no execution outcome")
      ensure (receipt.body.outcome = outcome.borsh)
        (.corruption "receipt completion does not match execution evidence")
    | .stopped cause =>
      ensure (state.status.terminalCause = some cause)
        (.corruption "stop artifact does not match execution cause")

def validateProjectionRows (d : Database κ) (e : Execution κ) (state : ExecutionState κ) :
    Except StoreError Unit := do
  e.host.db.validateEventRows state
  let trace ← e.validateAgreedRows state
  e.host.db.validateTimerRows state
  d.validateTerminalRows e state trace

/-- Load one execution; an archived one is checked against its publication rows. -/
def loadExecution (d : Database κ) (executionId : ExecId) :
    Except StoreError (Option (ExecutionState κ)) :=
  match d.executions.get? executionId with
  | none => .ok none
  | some e => do
    ensure (e.row.hostId = d.hostId) (.identityMismatch e.row.hostId d.hostId)
    let state ← e.decodeStateRow
    if state.lifecycle.isTerminal then d.validateTerminalRelation e state else .ok ()
    return some state

/-- The receipts nobody here produced are read; those of archived executions are read on demand. -/
def validateReceipts (d : Database κ) : Except StoreError Unit :=
  forAll (fun row =>
    match d.receiptProduction row.receiptId with
    | some _ => .ok ()
    | none => do
      let _ ← d.decodeStoredReceipt row) d.receipts

/-- The execution and receipt checks of opening the database: every unfinished execution is
loaded and its projections are validated. -/
def validateDatabase (d : Database κ) : Except StoreError Unit := do
  forAll (fun p =>
    if p.2.row.lifecycle.isTerminal then .ok ()
    else do
      let state ← d.loadExecution p.1
      let state ← okOr state (.corruption "execution disappeared during validation")
      d.validateProjectionRows p.2 state) d.executions.entries
  d.validateReceipts

end Database

end Arena0
