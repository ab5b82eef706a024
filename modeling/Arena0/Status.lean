import Arena0.Effects

/-!
# Cursors, stops and execution status

The agreed-step coordinate, signed abort occurrences, terminal outcomes and the
one persisted owner of execution progress and terminal evidence.
-/

namespace Arena0

open Borsh Fallible

variable {κ : Primitives} {bytes : Bytes}

/-! ## The agreed-step coordinate -/

/-- The next step to be agreed with the last agreed state and commitment link. -/
@[ext] structure StepCursor where
  nextStep : UInt64
  stateHash : StateHash
  chainHash : FixedBytes 32
  deriving DecidableEq

namespace StepCursor

def codec : Codec StepCursor :=
  (Codec.u64.pair <| Id.codec.pair (Codec.fixed 32)).equiv
  { toFun := fun (a, b, c) => ⟨a, b, c⟩
    invFun := fun c => (c.nextStep, c.stateHash, c.chainHash) }

def advance (κ : Primitives) (cursor : StepCursor) (commitment : StepCommitment) :
    Except ProtocolError StepCursor := do
  let nextStep ← okOr (checkedAdd cursor.nextStep 1) .agreedStepExhausted
  ensure (commitment.step = cursor.nextStep)
    (.stepCoordinateMismatch cursor.nextStep commitment.step)
  ensure (commitment.preState = cursor.stateHash)
    (.agreedPreStateMismatch cursor.stateHash commitment.preState)
  ensure (commitment.link = cursor.chainHash) .agreedChainMismatch
  return ⟨nextStep, commitment.postState, commitment.linkHash κ⟩

theorem advance_eq_ok {cursor next : StepCursor} {c : StepCommitment} :
    cursor.advance κ c = .ok next ↔
      checkedAdd cursor.nextStep 1 = some next.nextStep ∧ c.step = cursor.nextStep ∧
        c.preState = cursor.stateHash ∧ c.link = cursor.chainHash ∧
        next.stateHash = c.postState ∧ next.chainHash = c.linkHash κ := by
  simp only [advance, bind_eq_ok, okOr_eq_ok, ensure_eq_ok, pure_eq_ok]
  constructor
  · rintro ⟨n, hn, _, hs, _, hp, _, hl, rfl⟩
    exact ⟨hn, hs, hp, hl, rfl, rfl⟩
  · rintro ⟨hn, hs, hp, hl, hst, hch⟩
    exact ⟨_, hn, (), hs, (), hp, (), hl, by ext1 <;> simp [hst, hch]⟩

theorem advance_toNat {cursor next : StepCursor} {c : StepCommitment}
    (h : cursor.advance κ c = .ok next) : next.nextStep.toNat = c.step.toNat + 1 := by
  obtain ⟨hn, hs, -⟩ := advance_eq_ok.1 h
  have := checkedAdd_eq_some hn
  rw [hs]
  simpa using this

end StepCursor

/-! ## Abort occurrences -/

inductive AbortKind where
  | abort | fail
  deriving DecidableEq

def AbortKind.codec : Codec AbortKind :=
  (Codec.enum (.cons Codec.unit (.last Codec.unit))).equiv
  { toFun := fun
      | .inl _ => .abort
      | .inr _ => .fail
    invFun := fun
      | .abort => .inl ()
      | .fail => .inr ()
    left_inv := by rintro (_ | _) <;> rfl
    right_inv := by rintro (_ | _) <;> rfl }

def abortOccurrenceDomain : FixedBytes 24 := .padded 24 (Codec.utf8 "arena0/abort-occurrence")
def abortOccurrenceVersion : UInt16 := 1

structure AbortOccurrence where
  domain : FixedBytes 24
  version : UInt16
  sessionId : SessionHash
  sender : PeerId
  kind : AbortKind
  code : UInt32
  reason : String
  coordinate : StepCursor
  signature : Ed25519Signature
  deriving DecidableEq

namespace AbortOccurrence

def validateShape (o : AbortOccurrence) : Except ProtocolError Unit := do
  ensure (o.domain = abortOccurrenceDomain ∧ o.version = abortOccurrenceVersion ∧
    o.sessionId ≠ 0 ∧ o.sender ≠ 0) .invalidAbortOccurrence
  ensure (o.coordinate.nextStep = 0 → o.coordinate.chainHash = chainStart)
    .invalidAbortCoordinate
  ensurePayload "terminal reason" (byteLen o.reason) maxTerminalReasonBytes

def new (sessionId : SessionHash) (sender : PeerId) (kind : AbortKind) (code : UInt32)
    (reason : String) (coordinate : StepCursor) (signature : Ed25519Signature) :
    Except ProtocolError AbortOccurrence := do
  let occurrence : AbortOccurrence := ⟨abortOccurrenceDomain, abortOccurrenceVersion, sessionId,
    sender, kind, code, reason, coordinate, signature⟩
  occurrence.validateShape
  return occurrence

/-- The shell whose signing bytes are passed to the identity key. -/
def unsigned (sessionId : SessionHash) (sender : PeerId) (kind : AbortKind) (code : UInt32)
    (reason : String) (coordinate : StepCursor) : Except ProtocolError AbortOccurrence :=
  new sessionId sender kind code reason coordinate 0

def withSignature (o : AbortOccurrence) (signature : Ed25519Signature) :
    Except ProtocolError AbortOccurrence := do
  let signed := { o with signature := signature }
  signed.validateShape
  return signed

def signingCodec : Codec (FixedBytes 24 × UInt16 × SessionHash × PeerId × AbortKind × UInt32 ×
    String × StepCursor) :=
  (Codec.fixed 24).pair <| Codec.u16.pair <| Id.codec.pair <| Id.codec.pair <|
    AbortKind.codec.pair <| Codec.u32.pair <|
    (Codec.string _ u32Max_lt).pair StepCursor.codec

def signingBytes (o : AbortOccurrence) : Except ProtocolError Bytes :=
  okOr (signingCodec.toVec (o.domain, o.version, o.sessionId, o.sender, o.kind, o.code, o.reason,
    o.coordinate)) (.serialization "length exceeds bound")

theorem coordinate_eq {a b : AbortOccurrence}
    (ha : a.signingBytes = .ok bytes) (hb : b.signingBytes = .ok bytes) :
    a.coordinate = b.coordinate := by
  simp only [signingBytes, okOr_eq_ok, Codec.toVec_eq_some_iff] at ha hb
  have heq := signingCodec.encode_inj ha.1 hb.1 (ha.2.trans hb.2.symm)
  simp only [Prod.mk.injEq] at heq
  exact heq.2.2.2.2.2.2.2

def verifySignature (κ : Primitives) (o : AbortOccurrence) : Except ProtocolError Bool := do
  let bytes ← o.signingBytes
  (κ.ed25519Verify o.sender.bytes bytes o.signature).mapError fun error =>
    .invalidAbortSignature (toString error)

def validateForSession (o : AbortOccurrence) (session : SessionHash) :
    Except ProtocolError Unit := do
  o.validateShape
  ensure (o.sessionId = session) .invalidAbortCoordinate
  ensure (o.coordinate.nextStep = 0 → o.coordinate.chainHash = chainStart)
    .invalidAbortCoordinate

def fieldsCodec (reason : Codec String) : Codec AbortOccurrence :=
  ((Codec.fixed 24).pair <| Codec.u16.pair <| Id.codec.pair <| Id.codec.pair <|
    AbortKind.codec.pair <| Codec.u32.pair <| reason.pair <|
    StepCursor.codec.pair (Codec.fixed 64)).equiv
  { toFun := fun (a, b, c, d, e, f, g, h, i) => (⟨a, b, c, d, e, f, g, h, i⟩ : AbortOccurrence)
    invFun := fun o => (o.domain, o.version, o.sessionId, o.sender, o.kind, o.code, o.reason,
      o.coordinate, o.signature) }

def codec : Codec AbortOccurrence :=
  (fieldsCodec reasonCodec).guarded fun o => o.validateShape.isOk

variable {o : AbortOccurrence}

theorem validateShape_eq_ok : o.validateShape = .ok () ↔
    (o.domain = abortOccurrenceDomain ∧ o.version = abortOccurrenceVersion ∧ o.sessionId ≠ 0 ∧
      o.sender ≠ 0) ∧ (o.coordinate.nextStep = 0 → o.coordinate.chainHash = chainStart) ∧
    byteLen o.reason ≤ maxTerminalReasonBytes := by
  simp only [validateShape, ensurePayload, bind_eq_ok, ensure_eq_ok, exists_const]

theorem codec_valid : codec.valid o = true ↔ o.validateShape = .ok () := by
  have hshape : o.validateShape.isOk = true ↔ o.validateShape = .ok () := by
    cases o.validateShape with
    | ok u => simp [Except.isOk, Except.toBool]
    | error e => simp [Except.isOk, Except.toBool]
  constructor
  · intro h
    exact hshape.1 (Bool.and_eq_true _ _ ▸ h).2
  · intro h
    have hkind : AbortKind.codec.valid o.kind = true := by cases o.kind <;> rfl
    have hstring : (Codec.utf8 o.reason).length ≤ maxTerminalReasonBytes :=
      (validateShape_eq_ok.1 h).2.2
    simp [codec, fieldsCodec, hkind, hstring, hshape.2 h, StepCursor.codec, Codec.u16, Codec.u32,
      Codec.u64, Codec.word]

end AbortOccurrence

/-! ## Stop causes -/

def ensureReason (reason : String) : Except ProtocolError Unit :=
  ensurePayload "terminal reason" (byteLen reason) maxTerminalReasonBytes

inductive StopCause where
  | authenticated (occurrence : AbortOccurrence)
  | shared (kind : AbortKind) (commitment : StepCommitment) (reason : String)
  deriving DecidableEq

namespace StopCause

def kind : StopCause → AbortKind
  | .authenticated occurrence => occurrence.kind
  | .shared kind .. => kind

def validate : StopCause → Except ProtocolError Unit
  | .authenticated occurrence => occurrence.validateShape
  | .shared _ commitment reason => do
    ensure (commitment.hasStepDomain = true) .invalidTerminalStatus
    ensureReason reason

def validateBinding (cause : StopCause) (binding : ExecutionBinding κ) (agreed : StepCursor) :
    Except ProtocolError Unit :=
  match cause with
  | .authenticated occurrence => do
    ensure (occurrence.sessionId = binding.sessionId ∧ occurrence.coordinate = agreed ∧
      binding.isParticipant occurrence.sender = true) .invalidTerminalStatus
    let valid ← (occurrence.verifySignature κ).mapError fun _ => .invalidTerminalStatus
    ensure (valid = true) .invalidTerminalStatus
  | .shared _ commitment _ =>
    ensure (commitment.isBoundTo binding.sessionId = true ∧
      checkedAdd commitment.step 1 = some agreed.nextStep ∧
      commitment.postState = agreed.stateHash ∧ commitment.linkHash κ = agreed.chainHash)
      .invalidTerminalStatus

def codec : Codec StopCause :=
  (Codec.enum (.cons AbortOccurrence.codec
    (.last (AbortKind.codec.pair <| StepCommitment.codec.pair <|
      reasonCodec)))).equiv
  { toFun := fun
      | .inl occurrence => .authenticated occurrence
      | .inr (kind, commitment, reason) => .shared kind commitment reason
    invFun := fun
      | .authenticated occurrence => .inl occurrence
      | .shared kind commitment reason => .inr (kind, commitment, reason)
    left_inv := by rintro (_ | _) <;> rfl
    right_inv := by rintro (_ | _) <;> rfl }

end StopCause

/-! ## Terminal outcomes -/

variable (κ) in
/-- The Borsh outcome and its JSON projection. -/
structure TerminalOutcome where
  borsh : Bytes
  json : Bytes
  borsh_le : borsh.length ≤ maxTerminalOutcomeBytes
  json_le : json.length ≤ maxTerminalOutcomeBytes
  json_valid : κ.checkJson json = .ok ()
  deriving DecidableEq

namespace TerminalOutcome

def validateBorsh (bytes : Bytes) : Except ProtocolError Unit :=
  ensurePayload "Borsh outcome" bytes.length (min maxTerminalOutcomeBytes maxCallPayloadBytes)

def validateJson (κ : Primitives) (bytes : Bytes) : Except ProtocolError Unit := do
  ensurePayload "JSON outcome" bytes.length (min maxTerminalOutcomeBytes maxCallPayloadBytes)
  let _ ← (JsonBytes.tryNew κ bytes).mapError fun error =>
    ProtocolError.invalidOutcomeProjection (toString error)

def validate (o : TerminalOutcome κ) : Except ProtocolError Unit := do
  validateBorsh o.borsh
  validateJson κ o.json

theorem validateBorsh_eq_ok :
    validateBorsh bytes = .ok () ↔ bytes.length ≤ maxTerminalOutcomeBytes := by
  have hmin : min maxTerminalOutcomeBytes maxCallPayloadBytes = maxTerminalOutcomeBytes := by
    decide
  simp [validateBorsh, ensurePayload, hmin]

theorem validateJson_eq_ok :
    validateJson κ bytes = .ok () ↔
      bytes.length ≤ maxTerminalOutcomeBytes ∧ κ.checkJson bytes = .ok () := by
  have hmin : min maxTerminalOutcomeBytes maxCallPayloadBytes = maxTerminalOutcomeBytes := by
    decide
  simp only [validateJson, ensurePayload, bind_eq_ok, ensure_eq_ok, hmin, mapError_eq_ok]
  constructor
  · rintro ⟨_, hle, json, hjson, -⟩
    refine ⟨hle, ?_⟩
    unfold JsonBytes.tryNew at hjson
    split at hjson
    · split at hjson
      · assumption
      · cases hjson
    · cases hjson
  · rintro ⟨hle, hjson⟩
    have hcall : bytes.length ≤ maxCallPayloadBytes := le_trans hle (by decide)
    exact ⟨(), hle, _, JsonBytes.tryNew_bytes κ ⟨bytes, hcall, hjson⟩, rfl⟩

theorem validate_eq_ok (o : TerminalOutcome κ) : o.validate = .ok () := by
  simp only [validate, bind_eq_ok]
  exact ⟨(), validateBorsh_eq_ok.2 o.borsh_le, validateJson_eq_ok.2 ⟨o.json_le, o.json_valid⟩⟩

def new (κ : Primitives) (borsh json : Bytes) : Except ProtocolError (TerminalOutcome κ) :=
  match hb : validateBorsh borsh, hj : validateJson κ json with
  | .ok (), .ok () => .ok ⟨borsh, json, validateBorsh_eq_ok.1 hb, (validateJson_eq_ok.1 hj).1,
      (validateJson_eq_ok.1 hj).2⟩
  | .error error, _ => .error error
  | .ok (), .error error => .error error

theorem new_parts (o : TerminalOutcome κ) : new κ o.borsh o.json = .ok o := by
  have hb := validateBorsh_eq_ok.2 o.borsh_le
  have hj := validateJson_eq_ok.2 ⟨o.json_le, o.json_valid⟩
  unfold new
  split
  · rfl
  · rename_i h
    rw [hb] at h
    cases h
  · rename_i h
    rw [hj] at h
    cases h

end TerminalOutcome

/-! ## Execution status -/

variable (κ) in
/-- The one persisted owner of lifecycle progress and terminal evidence. -/
inductive ExecutionStatus where
  | activating
  | active
  | certified (outcome : TerminalOutcome κ)
  | completed (outcome : TerminalOutcome κ) (receiptId : ReceiptId)
  | stopped (cause : StopCause)
  | stoppedPublished (cause : StopCause) (receiptId : ReceiptId)
  deriving DecidableEq

namespace ExecutionStatus

inductive ReceiptWork where
  | notTerminal | assemble | published
  deriving DecidableEq

def receiptWork : ExecutionStatus κ → ReceiptWork
  | .activating | .active => .notTerminal
  | .certified _ | .stopped _ => .assemble
  | .completed .. | .stoppedPublished .. => .published

def lifecycle : ExecutionStatus κ → ExecLifecycle
  | .activating => .activating
  | .active | .certified _ => .active
  | .completed .. => .completed
  | .stopped cause | .stoppedPublished cause _ =>
    match cause.kind with
    | .fail => .failed
    | .abort => .aborted

def isTerminal : ExecutionStatus κ → Bool
  | .activating | .active => false
  | _ => true

def terminalCause : ExecutionStatus κ → Option StopCause
  | .stopped cause | .stoppedPublished cause _ => some cause
  | _ => none

def fromSharedEntry (entry : TraceEntry) (commitment : StepCommitment) :
    Except ProtocolError (Option (ExecutionStatus κ)) :=
  match entry.terminal with
  | some (.abort reason) => do
    ensureReason reason
    return some (.stopped (.shared .abort commitment reason))
  | some (.fail reason) => do
    ensureReason reason
    return some (.stopped (.shared .fail commitment reason))
  | some (.end _) | none => .ok none

/-- Validate status against the activation binding and the agreed cursor. -/
def validateBinding (status : ExecutionStatus κ) (binding : ExecutionBinding κ)
    (agreed : StepCursor) : Except ProtocolError Unit :=
  match status with
  | .activating | .active => .ok ()
  | .certified outcome => do
    outcome.validate
    ensure (agreed.nextStep ≠ 0) .invalidTerminalStatus
  | .completed outcome receiptId => do
    outcome.validate
    ensure (agreed.nextStep ≠ 0) .invalidTerminalStatus
    ensure (receiptId ≠ 0) .invalidTerminalStatus
  | .stopped cause => do
    cause.validate
    cause.validateBinding binding agreed
  | .stoppedPublished cause receiptId => do
    cause.validate
    cause.validateBinding binding agreed
    ensure (receiptId ≠ 0) .invalidTerminalStatus

def unpublished : ExecutionStatus κ → ExecutionStatus κ
  | .completed outcome _ => .certified outcome
  | .stoppedPublished cause _ => .stopped cause
  | status => status

def publishedReceiptId : ExecutionStatus κ → Option ReceiptId
  | .completed _ receiptId | .stoppedPublished _ receiptId => some receiptId
  | _ => none

variable {status : ExecutionStatus κ}

theorem validateBinding_eq_ok {binding : ExecutionBinding κ} {agreed : StepCursor} :
    status.validateBinding binding agreed = .ok () ↔
      status.unpublished.validateBinding binding agreed = .ok () ∧
        ∀ id, status.publishedReceiptId = some id → id ≠ 0 := by
  cases status <;>
    simp [validateBinding, unpublished, publishedReceiptId, and_assoc]

/-- The status a proposed entry installs, refusing an outcome that disagrees with it. -/
def fromProposalEntry (entry : TraceEntry) (commitment : StepCommitment)
    (terminalOutcome : Option (TerminalOutcome κ)) : Except ProtocolError (ExecutionStatus κ) :=
  match entry.terminal with
  | some (.end effectOutcome) => do
    let outcome ← okOr terminalOutcome .terminalOutcomeRequired
    ensure (outcome.borsh = effectOutcome) .outcomeProjectionMismatch
    return .certified outcome
  | some (.abort _) | some (.fail _) => do
    ensure (terminalOutcome = none) .terminalOutcomeMismatch
    let status ← fromSharedEntry entry commitment
    okOr status .invalidTerminalStatus
  | none => do
    ensure (terminalOutcome = none) .terminalOutcomeMismatch
    return .active

/-- Compare a proposal's status with the terminal value of its entry. -/
def validateProposalStatus (entry : TraceEntry) (commitment : StepCommitment)
    (status : ExecutionStatus κ) : Except ProtocolError Unit :=
  match entry.terminal, status with
  | none, .active => .ok ()
  | none, _ => .error .invalidTerminalStatus
  | some (.abort reason), .stopped (.shared .abort actual actualReason) =>
    ensure (actual = commitment ∧ actualReason = reason) .invalidTerminalStatus
  | some (.fail reason), .stopped (.shared .fail actual actualReason) =>
    ensure (actual = commitment ∧ actualReason = reason) .invalidTerminalStatus
  | some (.end outcome), .certified actual => do
    actual.validate
    ensure (actual.borsh = outcome) .terminalOutcomeMismatch
  | some (.end _), _ => .error .terminalOutcomeRequired
  | some (.abort _), _ | some (.fail _), _ => .error .invalidTerminalStatus

@[simp] theorem isTerminal_unpublished (status : ExecutionStatus κ) :
    status.unpublished.isTerminal = status.isTerminal := by
  cases status <;> rfl

@[simp] theorem terminalCause_unpublished (status : ExecutionStatus κ) :
    status.unpublished.terminalCause = status.terminalCause := by
  cases status <;> rfl

theorem unpublished_of_terminalCause {cause : StopCause} (h : status.terminalCause = some cause) :
    status.unpublished = .stopped cause := by
  cases status with
  | stopped c | stoppedPublished c => exact congrArg _ (Option.some.inj h)
  | _ => cases h

variable {entry : TraceEntry} {commitment : StepCommitment}

/-- A proposal's status is terminal exactly when its entry is, and then it is not a
unilateral stop. -/
theorem validateProposalStatus_terminal
    (h : validateProposalStatus entry commitment status = .ok ()) :
    status.isTerminal = entry.isTerminal ∧
      ∀ occurrence, status.terminalCause ≠ some (.authenticated occurrence) := by
  unfold validateProposalStatus at h
  split at h
  · rename_i hterminal
    exact ⟨by simp [TraceEntry.isTerminal, hterminal, isTerminal], by simp [terminalCause]⟩
  · cases h
  iterate 3
    · rename_i hterminal
      exact ⟨by simp [TraceEntry.isTerminal, hterminal, isTerminal], by simp [terminalCause]⟩
  all_goals cases h

theorem validateProposalStatus_certified {outcome : TerminalOutcome κ}
    (h : validateProposalStatus entry commitment (.certified outcome) = .ok ()) :
    entry.terminal = some (.end outcome.borsh) := by
  unfold validateProposalStatus at h
  cases ht : entry.terminal with
  | none => simp [ht] at h
  | some terminal =>
    cases terminal with
    | «end» actual =>
      simp only [ht, bind_eq_ok, ensure_eq_ok] at h
      obtain ⟨_, -, rfl⟩ := h
      rfl
    | abort reason => simp [ht] at h
    | fail reason => simp [ht] at h

theorem validateProposalStatus_shared {actual : StepCommitment} {kind : AbortKind} {reason : String}
    (h : validateProposalStatus entry commitment
      (.stopped (.shared kind actual reason) : ExecutionStatus κ) = .ok ()) :
    actual = commitment ∧ (kind = .abort ∧ entry.terminal = some (.abort reason) ∨
      kind = .fail ∧ entry.terminal = some (.fail reason)) := by
  unfold validateProposalStatus at h
  cases ht : entry.terminal with
  | none => simp [ht] at h
  | some terminal =>
    cases terminal with
    | «end» outcome => simp [ht] at h
    | abort actualReason =>
      cases kind with
      | abort =>
        simp only [ht, ensure_eq_ok] at h
        obtain ⟨hcommitment, rfl⟩ := h
        exact ⟨hcommitment, .inl ⟨rfl, rfl⟩⟩
      | fail => simp [ht] at h
    | fail actualReason =>
      cases kind with
      | abort => simp [ht] at h
      | fail =>
        simp only [ht, ensure_eq_ok] at h
        obtain ⟨hcommitment, rfl⟩ := h
        exact ⟨hcommitment, .inr ⟨rfl, rfl⟩⟩

theorem publishedReceiptId_of_proposal
    (h : validateProposalStatus entry commitment status = .ok ()) :
    status.publishedReceiptId = none := by
  unfold validateProposalStatus at h
  split at h
  · rfl
  · cases h
  · rfl
  · rfl
  · rfl
  all_goals cases h

end ExecutionStatus

end Arena0
