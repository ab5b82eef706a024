import Arena0.Admission
import Arena0.OrdMap

/-!
# Requests and activation records

The durable rows a host writes before an execution runs: one request for each
execution, at most one activation record with its prepared and then committed
evidence, and a log of the evidence that was refused.  Every operation is one
transaction; a failed one, and a crash, leave the rows as they were.
-/

namespace Arena0

open Borsh Fallible

variable {κ : Primitives}

/-! ## Rows and records -/

/-- A row of `exec_requests`. -/
structure RequestRow where
  createdOrder : ℕ
  programHash : ProgramHash
  params : Option Bytes
  admission : Bytes
  negotiationId : Option NegotiationId
  grants : Bytes
  createdAtMs : UInt64
  failure : Option String
  deriving DecidableEq

variable (κ) in
structure ExecutionRequest where
  executionId : ExecId
  programHash : ProgramHash
  params : Option (JsonBytes κ)
  admission : ExecutionAdmission
  createdOrder : ℕ
  createdAtMs : UInt64
  failure : Option String
  deriving DecidableEq

inductive ActivationRecordStatus where
  | prepared | committed
  deriving DecidableEq

/-- A row of `activation_records`. -/
structure ActivationRow where
  sessionId : SessionHash
  status : ActivationRecordStatus
  prepared : Bytes
  committed : Option Bytes
  facts : Bytes
  createdAtMs : UInt64
  updatedAtMs : UInt64
  deriving DecidableEq

variable (κ) in
inductive ActivationRecordState where
  | prepared (evidence : PreparedActivation κ)
  | committed (evidence : PreparedActivation κ) (activation : Activation κ)
  deriving DecidableEq

variable (κ) in
structure ActivationRecord where
  executionId : ExecId
  state : ActivationRecordState κ
  updatedAtMs : UInt64
  deriving DecidableEq

namespace ActivationRecord

def prepared (record : ActivationRecord κ) : PreparedActivation κ :=
  match record.state with
  | .prepared evidence => evidence
  | .committed evidence _ => evidence

def activation (record : ActivationRecord κ) : Option (Activation κ) :=
  match record.state with
  | .prepared _ => none
  | .committed _ activation => some activation

def status (record : ActivationRecord κ) : ActivationRecordStatus :=
  match record.state with
  | .prepared _ => .prepared
  | .committed .. => .committed

def newPrepared (executionId : ExecId) (prepared : PreparedActivation κ) (updatedAtMs : UInt64) :
    ActivationRecord κ :=
  ⟨executionId, .prepared prepared, updatedAtMs⟩

def newCommitted (executionId : ExecId) (activation : Activation κ) (updatedAtMs : UInt64) :
    ActivationRecord κ :=
  ⟨executionId, .committed activation.prepared activation, updatedAtMs⟩

end ActivationRecord

inductive ActivationConflictKind where
  | prepared | committed
  deriving DecidableEq

/-- A row of `activation_conflicts`: evidence that was refused, beside what it was refused for. -/
structure ConflictRow where
  executionId : ExecId
  kind : ActivationConflictKind
  existing : Bytes
  incoming : Bytes
  observedAtMs : UInt64
  deriving DecidableEq

/-- The registries of a host.  Of `programs` the removal time is read, of `blobs` the hashes and of
`executions` the lifecycle column. -/
structure Registry where
  hostId : PeerId
  programs : OrdMap ProgramHash (Option UInt64)
  blobs : List BlobHash
  blobGrants : List (ExecId × BlobHash)
  requests : OrdMap ExecId RequestRow
  lastOrder : ℕ
  activations : OrdMap ExecId ActivationRow
  conflicts : List ConflictRow
  lifecycles : OrdMap ExecId ExecLifecycle

inductive ExecutionRequestOutcome where
  | created | alreadyExists | conflict
  deriving DecidableEq

inductive AdmissionBindingOutcome where
  | bound | alreadyBound | conflict
  deriving DecidableEq

inductive ExecutionRequestFailureOutcome where
  | recorded | alreadyRecorded | conflict
  deriving DecidableEq

variable (κ) in
inductive PrepareActivationOutcome where
  | prepared (record : ActivationRecord κ)
  | alreadyPrepared (record : ActivationRecord κ)
  | alreadyCommitted (record : ActivationRecord κ)
  | conflict (existing incoming : ActivationRecord κ)
  deriving DecidableEq

variable (κ) in
inductive CommitActivationOutcome where
  | committed (record : ActivationRecord κ)
  | alreadyCommitted (record : ActivationRecord κ)
  | conflict (existing incoming : ActivationRecord κ)
  deriving DecidableEq

namespace Registry

def maxAdmissionBytes : ℕ := 4 * 1024
def maxActivationBytes : ℕ := 16 * 1024 * 1024

def empty (hostId : PeerId) : Registry :=
  ⟨hostId, .empty, [], [], .empty, 0, .empty, [], .empty⟩

def decodeBorsh {α : Type} (codec : Codec α) (bytes : Bytes) (field : String) :
    Except StoreError α :=
  okOr (codec.fromSlice bytes) (.corruption s!"{field} decode: invalid data")

/-! ## Reading rows -/

def validateNegotiationIndex (admission : ExecutionAdmission) (stored : Option NegotiationId) :
    Except StoreError Unit :=
  ensure (stored = admission.negotiationId)
    (.corruption "request negotiation index does not match admission")

def validateLocalAdmission (hostId : PeerId) : ExecutionAdmission → Except StoreError Unit
  | .create negotiationId participantCount =>
    (ExecutionAdmission.tryCreate negotiationId participantCount >>= fun _ => .ok ()).mapError
      fun error => .invalidAdmission (toString error)
  | .join (some target) =>
    ensure (target.creator ≠ hostId) (.invalidAdmission "a Host cannot join its own negotiation")
  | .join none => .ok ()

def validateRequestParams (admission : ExecutionAdmission) (paramsPresent : Bool) :
    Except StoreError Unit :=
  match admission with
  | .create .. =>
    ensure (paramsPresent = true) (.invalidAdmission "creator admission requires params")
  | .join _ => .ok ()

def decodeAdmission (κ : Primitives) (bytes : Bytes) : Except StoreError ExecutionAdmission := do
  let payload ← DurableEnvelope.«open» κ .executionAdmission bytes maxAdmissionBytes
  decodeBorsh ExecutionAdmission.codec payload "execution admission"

/-- The params column as JSON, refused under the label of the reader. -/
def decodeParams (κ : Primitives) (label : String) :
    Option Bytes → Except StoreError (Option (JsonBytes κ))
  | none => .ok none
  | some bytes => do
    let params ← (JsonBytes.tryNew κ bytes).mapError fun error =>
      StoreError.corruption s!"{label}: {error}"
    return some params

def decodeRequest (executionId : ExecId) (row : RequestRow) :
    Except StoreError (ExecutionRequest κ) := do
  let admission ← decodeAdmission κ row.admission
  validateNegotiationIndex admission row.negotiationId
  let params ← decodeParams κ "request params" row.params
  (validateRequestParams admission params.isSome).mapError fun error =>
    .corruption s!"invalid request params: {error}"
  return { executionId, programHash := row.programHash, params, admission,
           createdOrder := row.createdOrder, createdAtMs := row.createdAtMs,
           failure := row.failure }

variable (κ) in
def loadExecutionRequest (d : Registry) (executionId : ExecId) :
    Except StoreError (Option (ExecutionRequest κ)) :=
  match d.requests.get? executionId with
  | none => .ok none
  | some row => do
    let request ← decodeRequest executionId row
    return some request

/-- The committed evidence of a row, bound to its prepared evidence. -/
def decodeCommitted (prepared : PreparedActivation κ) :
    Option Bytes → Except StoreError (Option (Activation κ))
  | none => .ok none
  | some bytes => do
    let payload ← DurableEnvelope.«open» κ .activation bytes maxActivationBytes
    let activation ← decodeBorsh (Activation.codec (κ := κ)) payload "activation"
    activation.validate.mapError fun error => .corruption s!"activation: {error}"
    ensure (prepared.matches activation = true)
      (.corruption "committed activation does not match prepared evidence")
    return some activation

/-- Decode one activation row only after checking its facts, session and status against the
authenticated evidence. -/
def decodeActivation (executionId : ExecId) (row : ActivationRow) :
    Except StoreError (ActivationRecord κ) := do
  let payload ← DurableEnvelope.«open» κ .preparedActivation row.prepared maxActivationBytes
  let prepared ← decodeBorsh (PreparedActivation.codec (κ := κ)) payload "prepared activation"
  prepared.validate.mapError fun error => .corruption s!"prepared activation: {error}"
  let facts ← decodeBorsh ActivationFacts.codec row.facts "activation facts"
  ensure (facts = .of prepared) (.corruption "activation facts do not match decoded activation")
  ensure (prepared.sessionHash ≠ 0) (.corruption "activation has zero session identity")
  ensure (prepared.sessionHash = row.sessionId)
    (.corruption "activation session index does not match prepared evidence")
  let committed ← decodeCommitted prepared row.committed
  match row.status, committed with
  | .prepared, none => return ⟨executionId, .prepared prepared, row.updatedAtMs⟩
  | .committed, some activation =>
    return ⟨executionId, .committed prepared activation, row.updatedAtMs⟩
  | _, _ => .error (.corruption "activation status and committed evidence disagree")

variable (κ) in
def loadActivation (d : Registry) (executionId : ExecId) :
    Except StoreError (Option (ActivationRecord κ)) :=
  match d.activations.get? executionId with
  | none => .ok none
  | some row => do
    let record ← decodeActivation executionId row
    return some record

/-- Archive status is the terminal lifecycle of the aggregate when it exists, and a recorded
request failure otherwise. -/
def executionIsArchived (d : Registry) (executionId : ExecId) : Bool :=
  match d.lifecycles.get? executionId with
  | some lifecycle => lifecycle = .completed ∨ lifecycle = .aborted ∨ lifecycle = .failed
  | none =>
    match d.requests.get? executionId with
    | some row => row.failure.isSome
    | none => false

def ensureProgramRegistered (d : Registry) (hash : ProgramHash) : Except StoreError Unit :=
  ensure (d.programs.get? hash = some none)
    (.corruption "activation references a program that is not currently registered")

/-! ## Requests -/

/-- Seal an admission for its column, with the size check before it. -/
def sealAdmission (κ : Primitives) (admission : ExecutionAdmission) : Except StoreError Bytes := do
  let bytes ← okOr (ExecutionAdmission.codec.toVec admission)
    (.invalidAdmission "admission encoding failed: length exceeds bound")
  ensure (bytes.length ≤ maxAdmissionBytes) (.payloadTooLarge bytes.length maxAdmissionBytes)
  DurableEnvelope.«seal» κ .executionAdmission bytes

def grantsCodec : Codec (List BlobHash) := Codec.vec _ Id.codec u32Max_lt

/-- Insert the grants one by one; a grant is recorded once for each execution. -/
def insertGrants (executionId : ExecId) (granted : List (ExecId × BlobHash)) :
    List BlobHash → Except StoreError (List (ExecId × BlobHash))
  | [] => .ok granted
  | hash :: hashes => do
    ensure ((executionId, hash) ∉ granted)
      (.sqlite "UNIQUE constraint failed: blob_grants.execution_id, blob_grants.hash")
    insertGrants executionId (granted ++ [(executionId, hash)]) hashes

def createExecutionRequest (d : Registry) (executionId : ExecId) (programHash : ProgramHash)
    (params : Option (JsonBytes κ)) (admission : ExecutionAdmission) (grants : List BlobHash)
    (createdAtMs : UInt64) : Except StoreError (Registry × ExecutionRequestOutcome) := do
  let grants := sortDedup grants
  let grantsBytes ← encodeBorsh grantsCodec grants "grants"
  let paramsLen := (params.map (·.bytes.length)).getD 0
  ensure (paramsLen ≤ maxParamsLen) (.payloadTooLarge paramsLen maxParamsLen)
  validateRequestParams admission params.isSome
  match d.requests.get? executionId with
  | some row => do
    let existing ← decodeRequest (κ := κ) executionId row
    if existing.programHash = programHash ∧
        existing.params.map (·.bytes) = params.map (·.bytes) ∧
        existing.admission = admission ∧ row.grants = grantsBytes then
      return (d, .alreadyExists)
    else return (d, .conflict)
  | none => do
    d.ensureProgramRegistered programHash
    forAll (fun hash => ensure (hash ∈ d.blobs) (.blobNotFound hash)) grants
    validateLocalAdmission d.hostId admission
    let sealed ← sealAdmission κ admission
    sqliteU64 createdAtMs
    ensure (d.lastOrder + 1 < 2 ^ 63) (.sqlite "database or disk is full")
    let blobGrants ← insertGrants executionId d.blobGrants grants
    let row : RequestRow :=
      { createdOrder := d.lastOrder + 1, programHash, params := params.map (·.bytes)
        admission := sealed, negotiationId := admission.negotiationId, grants := grantsBytes
        createdAtMs, failure := none }
    return ({ d with
      requests := d.requests.insert executionId row
      lastOrder := d.lastOrder + 1
      blobGrants := blobGrants }, .created)

/-- Bind an open join to its selected offer before a ticket is signed. -/
def bindJoinTarget (κ : Primitives) (d : Registry) (executionId : ExecId)
    (target : NegotiationTarget) : Except StoreError (Registry × AdmissionBindingOutcome) := do
  ensure (target.creator ≠ d.hostId) (.invalidAdmission "a Host cannot join its own negotiation")
  match d.requests.get? executionId with
  | none => .error (.executionRequestNotFound executionId)
  | some row => do
    let request ← decodeRequest (κ := κ) executionId row
    ensure (request.failure = none) (.executionLifecycleStarted executionId)
    let activation ← d.loadActivation κ executionId
    ensure (activation = none) (.executionLifecycleStarted executionId)
    match request.admission with
    | .join none => do
      let admission := ExecutionAdmission.join (some target)
      let sealed ← sealAdmission κ admission
      let next := { row with admission := sealed, negotiationId := admission.negotiationId }
      return ({ d with requests := d.requests.insert executionId next }, .bound)
    | .join (some existing) =>
      return (d, if existing = target then .alreadyBound else .conflict)
    | .create .. => .error (.invalidAdmission "execution admission is not an open Join")

def boundedReason (reason : String) : Except StoreError Unit :=
  ensure ((Codec.utf8 reason).length ≤ maxErrorBytes)
    (.payloadTooLarge (Codec.utf8 reason).length maxErrorBytes)

def recordExecutionRequestFailure (κ : Primitives) (d : Registry) (executionId : ExecId)
    (reason : String) : Except StoreError (Registry × ExecutionRequestFailureOutcome) := do
  boundedReason reason
  match d.requests.get? executionId with
  | none => .error (.executionRequestNotFound executionId)
  | some row => do
    let request ← decodeRequest (κ := κ) executionId row
    let activation ← d.loadActivation κ executionId
    ensure (activation = none) (.executionLifecycleStarted executionId)
    match request.failure with
    | some existing => return (d, if existing = reason then .alreadyRecorded else .conflict)
    | none =>
      let next := { row with failure := some reason }
      return ({ d with requests := d.requests.insert executionId next }, .recorded)

/-! ## Activation records -/

def ensureAdmissionAuthority (hostId : PeerId) (admission : ExecutionAdmission)
    (prepared : PreparedActivation κ) : Except StoreError Unit :=
  let offer := prepared.offer.data
  match admission with
  | .create _ participantCount =>
    ensure (offer.creator = hostId ∧ offer.targetSize = participantCount)
      (.invalidAdmission "prepared activation changes the creator participant count")
  | .join (some target) =>
    ensure (offer.creator = target.creator ∧ offer.negotiationId = target.negotiationId)
      (.invalidAdmission "prepared activation came from a different creator")
  | .join none => .error (.invalidAdmission "prepared activation has no selected Join target")

def ensureExecutionRequestMatches (d : Registry) (executionId : ExecId)
    (prepared : PreparedActivation κ) : Except StoreError Unit := do
  let loaded ← d.loadExecutionRequest κ executionId
  let request ← okOr loaded (.executionRequestNotFound executionId)
  let offer := prepared.offer.data
  ensure (request.failure = none ∧ request.programHash = offer.programHash ∧
      (∀ params ∈ request.params, params.bytes = offer.params.bytes) ∧
      request.admission.negotiationId = some offer.negotiationId)
    (.corruption "prepared activation does not match its execution request")
  ensureAdmissionAuthority d.hostId request.admission prepared

def conflictRow (existing incoming : ActivationRecord κ) (kind : ActivationConflictKind)
    (nowMs : UInt64) : Except StoreError ConflictRow := do
  let (envelopeKind, existingBytes, incomingBytes) ←
    (match kind with
    | .prepared => do
      let existingBytes ←
        encodeBorsh PreparedActivation.codec existing.prepared "prepared activation"
      let incomingBytes ←
        encodeBorsh PreparedActivation.codec incoming.prepared "prepared activation"
      return (EnvelopeKind.preparedActivation, existingBytes, incomingBytes)
    | .committed => do
      let existingActivation ← okOr existing.activation
        (.corruption "committed activation conflict has no existing certificate")
      let incomingActivation ← okOr incoming.activation
        (.corruption "committed activation conflict has no incoming certificate")
      let existingBytes ← encodeBorsh Activation.codec existingActivation "activation"
      let incomingBytes ← encodeBorsh Activation.codec incomingActivation "activation"
      return (EnvelopeKind.activation, existingBytes, incomingBytes) :
      Except StoreError (EnvelopeKind × Bytes × Bytes))
  let existingSealed ← DurableEnvelope.«seal» κ envelopeKind existingBytes
  let incomingSealed ← DurableEnvelope.«seal» κ envelopeKind incomingBytes
  sqliteU64 nowMs
  return ⟨existing.executionId, kind, existingSealed, incomingSealed, nowMs⟩

def recordActivationConflict (d : Registry) (existing incoming : ActivationRecord κ)
    (kind : ActivationConflictKind) (nowMs : UInt64) : Except StoreError Registry := do
  let row ← conflictRow existing incoming kind nowMs
  return { d with conflicts := d.conflicts ++ [row] }

/-- Insert the first evidence of an execution; one session has one record. -/
def insertActivation (d : Registry) (executionId : ExecId) (prepared : PreparedActivation κ)
    (encoded : Bytes) (nowMs : UInt64) : Except StoreError Registry := do
  let sealed ← DurableEnvelope.«seal» κ .preparedActivation encoded
  sqliteU64 nowMs
  let facts ← encodeBorsh ActivationFacts.codec (.of prepared) "activation facts"
  ensure (∀ p ∈ d.activations.entries, p.2.sessionId ≠ prepared.sessionHash)
    (.sqlite "UNIQUE constraint failed: activation_records.session_id")
  let row : ActivationRow := ⟨prepared.sessionHash, .prepared, sealed, none, facts, nowMs, nowMs⟩
  return { d with activations := d.activations.insert executionId row }

def prepareActivation (d : Registry) (executionId : ExecId) (prepared : PreparedActivation κ)
    (nowMs : UInt64) : Except StoreError (Registry × PrepareActivationOutcome κ) := do
  prepared.validate.mapError fun error => .corruption s!"activation validation failed: {error}"
  let incoming := ActivationRecord.newPrepared executionId prepared nowMs
  let encoded ← encodeBorsh PreparedActivation.codec prepared "prepared activation"
  d.ensureProgramRegistered prepared.offer.data.programHash
  let loaded ← d.loadActivation κ executionId
  match loaded with
  | none => do
    d.ensureExecutionRequestMatches executionId prepared
    let next ← d.insertActivation executionId prepared encoded nowMs
    return (next, .prepared incoming)
  | some existing =>
    if existing.prepared = prepared then
      match existing.status with
      | .prepared => return (d, .alreadyPrepared existing)
      | .committed => return (d, .alreadyCommitted existing)
    else do
      let next ← d.recordActivationConflict existing incoming .prepared nowMs
      return (next, .conflict existing incoming)

/-- Set the committed evidence of a record that is still only prepared. -/
def updateCommitted (d : Registry) (executionId : ExecId) (activation : Activation κ)
    (nowMs : UInt64) : Except StoreError Registry := do
  let encoded ← encodeBorsh Activation.codec activation "activation"
  sqliteU64 nowMs
  let sealed ← DurableEnvelope.«seal» κ .activation encoded
  let facts ← encodeBorsh ActivationFacts.codec (.of activation.prepared) "activation facts"
  let row ← okOr ((d.activations.get? executionId).filter (·.status = .prepared))
    (.corruption "activation commit compare-and-set changed no row")
  let next := { row with
    status := .committed, committed := some sealed, updatedAtMs := nowMs, facts := facts }
  return { d with activations := d.activations.insert executionId next }

def commitActivation (d : Registry) (executionId : ExecId) (activation : Activation κ)
    (nowMs : UInt64) : Except StoreError (Registry × CommitActivationOutcome κ) := do
  activation.validate.mapError fun error => .corruption s!"activation validation failed: {error}"
  let incoming := ActivationRecord.newCommitted executionId activation nowMs
  let loaded ← d.loadActivation κ executionId
  let existing ← okOr loaded (.activationNotFound executionId)
  if existing.prepared.matches activation = false then do
    let next ← d.recordActivationConflict existing incoming .prepared nowMs
    return (next, .conflict existing incoming)
  else if existing.status = .committed then
    if existing.activation = incoming.activation then return (d, .alreadyCommitted existing)
    else do
      let next ← d.recordActivationConflict existing incoming .committed nowMs
      return (next, .conflict existing incoming)
  else do
    let next ← d.updateCommitted executionId activation nowMs
    return (next, .committed incoming)

/-! ## The checks of an opening store -/

/-- One request row that is not archived, with the activation that belongs to it. -/
def validateExecutionRequest (κ : Primitives) (d : Registry) (executionId : ExecId)
    (row : RequestRow) : Except StoreError Unit := do
  ensure (row.createdOrder ≠ 0 ∧ (∀ params ∈ row.params, params.length ≤ maxParamsLen) ∧
      row.admission.length ≤ maxAdmissionBytes + DurableEnvelope.maxEnvelopeOverhead ∧
      ∀ reason ∈ row.failure, (Codec.utf8 reason).length ≤ maxErrorBytes)
    (.corruption "execution request row exceeds its bounds")
  let admission ← decodeAdmission κ row.admission
  validateNegotiationIndex admission row.negotiationId
  (validateLocalAdmission d.hostId admission).mapError fun error =>
    .corruption s!"invalid durable execution admission: {error}"
  let params ← decodeParams κ "invalid durable request params" row.params
  (validateRequestParams admission params.isSome).mapError fun error =>
    .corruption s!"invalid durable request params: {error}"
  let activation ← d.loadActivation κ executionId
  ensure (¬ (row.failure.isSome = true ∧ activation.isSome = true))
    (.corruption s!"failed execution request {executionId} has an activation record")
  match d.programs.get? row.programHash, activation with
  -- recovery fails a request whose program is missing
  | none, _ => .ok ()
  | some _, none => .ok ()
  | some _, some activation => do
    let offer := activation.prepared.offer.data
    ensure (offer.programHash = row.programHash ∧
        (∀ json ∈ params, offer.params.bytes = json.bytes) ∧
        admission.negotiationId = some offer.negotiationId)
      (.corruption "activation does not match its execution request")
    (ensureAdmissionAuthority d.hostId admission activation.prepared).mapError fun error =>
      .corruption s!"activation exceeds durable admission authority: {error}"

/-- The requests in their durable creation order, archived ones skipped. -/
def validateExecutionRequests (κ : Primitives) (d : Registry) : Except StoreError Unit :=
  forAll (fun p =>
    if d.executionIsArchived p.1 then .ok () else d.validateExecutionRequest κ p.1 p.2)
    (d.requests.entries.insertionSort fun p q => p.2.createdOrder ≤ q.2.createdOrder)

end Registry

/-! ## Runs -/

variable (κ) in
/-- The transactions on requests and activations, and those of the other registries they read. -/
inductive RegistryAction where
  | createRequest (executionId : ExecId) (programHash : ProgramHash)
      (params : Option (JsonBytes κ)) (admission : ExecutionAdmission) (grants : List BlobHash)
      (createdAtMs : UInt64)
  | bindJoinTarget (executionId : ExecId) (target : NegotiationTarget)
  | recordFailure (executionId : ExecId) (reason : String)
  | prepare (executionId : ExecId) (prepared : PreparedActivation κ) (nowMs : UInt64)
  | commit (executionId : ExecId) (activation : Activation κ) (nowMs : UInt64)
  | storeProgram (hash : ProgramHash)
  | removeProgram (hash : ProgramHash) (nowMs : UInt64)
  | storeBlob (hash : BlobHash)
  | grantBlob (executionId : ExecId) (hash : BlobHash)
  | setLifecycle (executionId : ExecId) (lifecycle : ExecLifecycle)
  | crash

namespace Registry

/-- What a transaction leaves: its rows when it returns, and nothing when it fails. -/
def settle {α : Type} (d : Registry) (result : Except StoreError (Registry × α)) : Registry :=
  match result with
  | .ok (next, _) => next
  | .error _ => d

def step (d : Registry) : RegistryAction κ → Registry
  | .createRequest executionId programHash params admission grants createdAtMs =>
    d.settle (d.createExecutionRequest executionId programHash params admission grants createdAtMs)
  | .bindJoinTarget executionId target => d.settle (d.bindJoinTarget κ executionId target)
  | .recordFailure executionId reason =>
    d.settle (d.recordExecutionRequestFailure κ executionId reason)
  | .prepare executionId prepared nowMs =>
    d.settle (d.prepareActivation executionId prepared nowMs)
  | .commit executionId activation nowMs =>
    d.settle (d.commitActivation executionId activation nowMs)
  | .storeProgram hash => { d with programs := d.programs.insert hash none }
  | .removeProgram hash nowMs =>
    match d.programs.get? hash with
    | some none => { d with programs := d.programs.insert hash (some nowMs) }
    | _ => d
  | .storeBlob hash => { d with blobs := hash :: d.blobs }
  | .grantBlob executionId hash => { d with blobGrants := d.blobGrants ++ [(executionId, hash)] }
  | .setLifecycle executionId lifecycle =>
    -- an aggregate row refers to its activation record
    match d.activations.get? executionId with
    | some _ => { d with lifecycles := d.lifecycles.insert executionId lifecycle }
    | none => d
  -- no transaction is left half done, and nothing else is durable
  | .crash => d

def run (d : Registry) : List (RegistryAction κ) → Registry
  | [] => d
  | action :: actions => (d.step action).run actions

end Registry

end Arena0
