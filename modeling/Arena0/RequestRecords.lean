import Arena0.Requests

/-!
# What the store writes into requests and activation records

A written row reads back as the values it was written from, and each operation
either leaves the registry as it was or writes one row.
-/

namespace Arena0

open Borsh Fallible

variable {κ : Primitives} {admission : ExecutionAdmission}

namespace Registry

/-! ## Admissions -/

theorem readable_of_validateLocalAdmission {hostId : PeerId}
    (h : validateLocalAdmission hostId admission = .ok ()) : admission.readable = true := by
  cases admission with
  | create negotiationId count =>
    simp only [validateLocalAdmission, mapError_eq_ok, bind_eq_ok] at h
    obtain ⟨value, hcreate, -⟩ := h
    rw [ExecutionAdmission.readable, hcreate]
    rfl
  | join target => rfl

theorem length_le_of_open {kind : EnvelopeKind} {encoded payload : Bytes} {max : ℕ}
    (h : DurableEnvelope.«open» κ kind encoded max = .ok payload) :
    encoded.length ≤ max + DurableEnvelope.maxEnvelopeOverhead := by
  simp only [DurableEnvelope.«open», bind_eq_ok, ensure_eq_ok] at h
  obtain ⟨_, hlength, -⟩ := h
  exact hlength

theorem open_sealAdmission {sealed : Bytes}
    (h : sealAdmission κ admission = .ok sealed) :
    DurableEnvelope.«open» κ .executionAdmission sealed maxAdmissionBytes =
      .ok (ExecutionAdmission.codec.encode admission) := by
  simp only [sealAdmission, bind_eq_ok, okOr_eq_ok, ensure_eq_ok, Codec.toVec_eq_some_iff] at h
  obtain ⟨_, ⟨-, rfl⟩, _, hlength, hseal⟩ := h
  exact DurableEnvelope.open_seal hseal hlength

theorem decodeAdmission_seal {sealed : Bytes}
    (h : sealAdmission κ admission = .ok sealed) (hreadable : admission.readable = true) :
    decodeAdmission κ sealed = .ok admission := by
  have hvalid := (ExecutionAdmission.within hreadable).valid
  simp only [decodeAdmission, open_sealAdmission h, ok_bind, decodeBorsh, okOr_eq_ok]
  exact ExecutionAdmission.codec.fromSlice_encode hvalid

theorem decodeParams_bytes (label : String) (params : Option (JsonBytes κ)) :
    decodeParams κ label (params.map (·.bytes)) = .ok params := by
  cases params with
  | none => rfl
  | some json => simp [decodeParams, JsonBytes.tryNew_bytes]

end Registry

/-! ## Request rows -/

open Registry

/-- A request row written from an admission and the params of its caller. -/
structure RequestRow.Written (hostId : PeerId) (row : RequestRow) (admission : ExecutionAdmission)
    (params : Option (JsonBytes κ)) : Prop where
  order : row.createdOrder ≠ 0
  params_eq : row.params = params.map (·.bytes)
  params_le : ∀ json ∈ params, json.bytes.length ≤ maxParamsLen
  sealed : sealAdmission κ admission = .ok row.admission
  authority : validateLocalAdmission hostId admission = .ok ()
  has_params : validateRequestParams admission params.isSome = .ok ()
  negotiationId : row.negotiationId = admission.negotiationId
  failure_le : ∀ reason ∈ row.failure, (Codec.utf8 reason).length ≤ maxErrorBytes

namespace RequestRow

def request (executionId : ExecId) (row : RequestRow) (admission : ExecutionAdmission)
    (params : Option (JsonBytes κ)) : ExecutionRequest κ :=
  { executionId, programHash := row.programHash, params, admission,
    createdOrder := row.createdOrder, createdAtMs := row.createdAtMs, failure := row.failure }

variable {hostId : PeerId} {row : RequestRow} {admission : ExecutionAdmission}
  {params : Option (JsonBytes κ)}

theorem Written.decodeAdmission (h : row.Written hostId admission params) :
    decodeAdmission κ row.admission = .ok admission :=
  decodeAdmission_seal h.sealed (readable_of_validateLocalAdmission h.authority)

theorem Written.decodeParams (h : row.Written hostId admission params) (label : String) :
    decodeParams κ label row.params = .ok params := by
  rw [h.params_eq]
  exact decodeParams_bytes label params

theorem Written.decodeRequest (h : row.Written hostId admission params) (executionId : ExecId) :
    decodeRequest executionId row = .ok (row.request executionId admission params) := by
  have hindex : validateNegotiationIndex admission row.negotiationId = .ok () :=
    ensure_eq_ok.2 h.negotiationId
  have hparams := h.has_params
  simp only [Registry.decodeRequest, h.decodeAdmission, ok_bind, hindex,
    h.decodeParams "request params", hparams]
  rfl

end RequestRow

/-! ## Activation rows -/

def ActivationRecordState.of (prepared : PreparedActivation κ) :
    Option (Activation κ) → ActivationRecordState κ
  | none => .prepared prepared
  | some activation => .committed prepared activation

structure ActivationRow.Written (row : ActivationRow) (prepared : PreparedActivation κ)
    (committed : Option (Activation κ)) : Prop where
  sealed : DurableEnvelope.«seal» κ .preparedActivation
    (PreparedActivation.codec.encode prepared) = .ok row.prepared
  sessionId : row.sessionId = prepared.sessionHash
  session_ne : prepared.sessionHash ≠ 0
  facts : row.facts = ActivationFacts.codec.encode (.of prepared)
  status : row.status = if committed.isSome then .committed else .prepared
  none_committed : committed = none → row.committed = none
  some_committed : ∀ activation ∈ committed, activation.prepared = prepared ∧
    ∃ bytes, row.committed = some bytes ∧
      DurableEnvelope.«seal» κ .activation (Activation.codec.encode activation) = .ok bytes

namespace ActivationRow

def record (executionId : ExecId) (row : ActivationRow) (prepared : PreparedActivation κ)
    (committed : Option (Activation κ)) : ActivationRecord κ :=
  ⟨executionId, .of prepared committed, row.updatedAtMs⟩

variable {executionId : ExecId} {row : ActivationRow} {prepared : PreparedActivation κ}
  {committed : Option (Activation κ)}

@[simp] theorem record_prepared : (row.record executionId prepared committed).prepared = prepared := by
  cases committed <;> rfl

@[simp] theorem record_activation :
    (row.record executionId prepared committed).activation = committed := by
  cases committed <;> rfl

theorem record_status : (row.record executionId prepared committed).status =
    if committed.isSome then .committed else .prepared := by
  cases committed <;> rfl

theorem Written.decodeCommitted (h : row.Written prepared committed) :
    decodeCommitted prepared row.committed = .ok committed := by
  cases hc : committed with
  | none =>
    rw [h.none_committed hc]
    rfl
  | some activation =>
    obtain ⟨hprepared, bytes, hbytes, hseal⟩ := h.some_committed activation hc
    have hwithin := activation.within
    have hlength : _ ≤ Registry.maxActivationBytes := hwithin.length_le.trans (by decide)
    simp only [hbytes, Registry.decodeCommitted, decodeBorsh, bind_eq_ok, okOr_eq_ok,
      mapError_eq_ok, ensure_eq_ok, pure_eq_ok]
    exact ⟨_, DurableEnvelope.open_seal hseal hlength, activation,
      Activation.codec.fromSlice_encode hwithin.valid, (), activation.validate_eq_ok, (),
      PreparedActivation.matches_iff.2 hprepared, rfl⟩

theorem Written.prepared_eq {later : ActivationRow} {prepared' : PreparedActivation κ}
    {committed' : Option (Activation κ)} (h : row.Written prepared committed)
    (h' : later.Written prepared' committed') (heq : later.prepared = row.prepared) :
    prepared' = prepared := by
  have hread : ∀ {row : ActivationRow} {p : PreparedActivation κ} {c : Option (Activation κ)},
      row.Written p c → DurableEnvelope.«open» κ .preparedActivation row.prepared
        Registry.maxActivationBytes = .ok (PreparedActivation.codec.encode p) :=
    fun hw => DurableEnvelope.open_seal hw.sealed (Codec.Within.length_le
      ((PreparedActivation.within _).mono (by decide)))
  have hencode := hread h'
  rw [heq, hread h] at hencode
  exact (PreparedActivation.codec.encode_inj prepared.within.valid prepared'.within.valid
    (Except.ok.inj hencode)).symm

theorem Written.decodeActivation (h : row.Written prepared committed) (executionId : ExecId) :
    decodeActivation executionId row = .ok (row.record executionId prepared committed) := by
  have hwithin := prepared.within
  have hlength : _ ≤ Registry.maxActivationBytes := hwithin.length_le.trans (by decide)
  have hfacts := ActivationFacts.codec.fromSlice_encode (ActivationFacts.codec_valid_of prepared)
  rw [← h.facts] at hfacts
  simp only [Registry.decodeActivation, decodeBorsh, bind_eq_ok, okOr_eq_ok, mapError_eq_ok,
    ensure_eq_ok]
  refine ⟨_, DurableEnvelope.open_seal h.sealed hlength, prepared,
    PreparedActivation.codec.fromSlice_encode hwithin.valid, (), prepared.validate_eq_ok, _,
    hfacts, (), rfl, (), h.session_ne, (), h.sessionId.symm, committed, h.decodeCommitted, ?_⟩
  rw [h.status]
  cases committed <;> rfl

end ActivationRow

/-! ## Operations -/

namespace Registry

variable {d next : Registry} {executionId : ExecId}

theorem loadActivation_eq_none (κ : Primitives) :
    d.loadActivation κ executionId = .ok none ↔ d.activations.get? executionId = none := by
  unfold loadActivation
  cases d.activations.get? executionId <;> simp

theorem loadActivation_eq_some {record : ActivationRecord κ} :
    d.loadActivation κ executionId = .ok (some record) ↔
      ∃ row, d.activations.get? executionId = some row ∧
        decodeActivation executionId row = .ok record := by
  unfold loadActivation
  cases d.activations.get? executionId <;> simp

theorem loadExecutionRequest_eq_some {request : ExecutionRequest κ} :
    d.loadExecutionRequest κ executionId = .ok (some request) ↔
      ∃ row, d.requests.get? executionId = some row ∧
        decodeRequest executionId row = .ok request := by
  unfold loadExecutionRequest
  cases d.requests.get? executionId <;> simp

theorem createExecutionRequest_eq_ok {programHash : ProgramHash} {params : Option (JsonBytes κ)}
    {admission : ExecutionAdmission} {grants : List BlobHash} {createdAtMs : UInt64}
    {outcome : ExecutionRequestOutcome}
    (h : d.createExecutionRequest executionId programHash params admission grants createdAtMs =
      .ok (next, outcome)) :
    (next = d ∧ outcome ≠ .created) ∨ d.requests.get? executionId = none ∧ outcome = .created ∧
      ∃ row blobGrants, row.Written d.hostId admission params ∧ row.programHash = programHash ∧
        row.failure = none ∧ next = { d with
          requests := d.requests.insert executionId row
          lastOrder := d.lastOrder + 1
          blobGrants := blobGrants } := by
  simp only [createExecutionRequest, bind_eq_ok, ensure_eq_ok] at h
  obtain ⟨grantsBytes, -, _, hlength, _, hparams, h⟩ := h
  split at h
  · simp only [bind_eq_ok] at h
    obtain ⟨existing, -, h⟩ := h
    split at h <;> obtain ⟨rfl, rfl⟩ := Prod.mk.inj (pure_eq_ok.1 h) <;> exact .inl ⟨rfl, by simp⟩
  · rename_i hnone
    simp only [bind_eq_ok, ensure_eq_ok, pure_eq_ok, Prod.mk.injEq] at h
    obtain ⟨_, -, _, -, _, hlocal, sealed, hseal, _, -, _, -, granted, -, rfl, rfl⟩ := h
    refine .inr ⟨hnone, rfl, _, granted, ⟨Nat.succ_ne_zero _, rfl, ?_, hseal, hlocal, hparams, rfl,
      by simp⟩, rfl, rfl, rfl⟩
    intro json hjson
    rw [Option.mem_def.1 hjson] at hlength
    exact hlength

theorem bindJoinTarget_eq_ok {target : NegotiationTarget} {outcome : AdmissionBindingOutcome}
    (h : d.bindJoinTarget κ executionId target = .ok (next, outcome)) :
    (next = d ∧ outcome ≠ .bound) ∨ outcome = .bound ∧ target.creator ≠ d.hostId ∧
      d.activations.get? executionId = none ∧
      ∃ row request sealed, d.requests.get? executionId = some row ∧
        decodeRequest (κ := κ) executionId row = .ok request ∧ request.failure = none ∧
        request.admission = .join none ∧ sealAdmission κ (.join (some target)) = .ok sealed ∧
        next = { d with
          requests := d.requests.insert executionId
            { row with admission := sealed, negotiationId := some target.negotiationId } } := by
  simp only [bindJoinTarget, bind_eq_ok, ensure_eq_ok] at h
  obtain ⟨_, hcreator, h⟩ := h
  split at h
  · cases h
  · rename_i row hrow
    simp only [bind_eq_ok, ensure_eq_ok] at h
    obtain ⟨request, hrequest, _, hfailure, activation, hload, _, rfl, h⟩ := h
    split at h
    · rename_i hopen
      simp only [bind_eq_ok, pure_eq_ok, Prod.mk.injEq] at h
      obtain ⟨sealed, hseal, rfl, rfl⟩ := h
      exact .inr ⟨rfl, hcreator, (loadActivation_eq_none κ).1 hload, row, request, sealed, hrow,
        hrequest, hfailure, hopen, hseal, rfl⟩
    · cases h
      exact .inl ⟨rfl, by split <;> simp⟩
    · cases h

theorem recordExecutionRequestFailure_eq_ok {reason : String}
    {outcome : ExecutionRequestFailureOutcome}
    (h : d.recordExecutionRequestFailure κ executionId reason = .ok (next, outcome)) :
    (next = d ∧ outcome ≠ .recorded) ∨ outcome = .recorded ∧
      (Codec.utf8 reason).length ≤ maxErrorBytes ∧ d.activations.get? executionId = none ∧
      ∃ row request, d.requests.get? executionId = some row ∧
        decodeRequest (κ := κ) executionId row = .ok request ∧ request.failure = none ∧
        next = { d with
          requests := d.requests.insert executionId { row with failure := some reason } } := by
  simp only [recordExecutionRequestFailure, boundedReason, bind_eq_ok, ensure_eq_ok] at h
  obtain ⟨_, hreason, h⟩ := h
  split at h
  · cases h
  · rename_i row hrow
    simp only [bind_eq_ok, ensure_eq_ok] at h
    obtain ⟨request, hrequest, activation, hload, _, rfl, h⟩ := h
    split at h
    · cases h
      exact .inl ⟨rfl, by split <;> simp⟩
    · rename_i hfailure
      cases h
      exact .inr ⟨rfl, hreason, (loadActivation_eq_none κ).1 hload, row, request, hrow, hrequest,
        hfailure, rfl⟩

/-- What a request must say for evidence to be prepared under it. -/
structure Authorizes (hostId : PeerId) (request : ExecutionRequest κ)
    (prepared : PreparedActivation κ) : Prop where
  program : request.programHash = prepared.offer.data.programHash
  params : ∀ json ∈ request.params, json.bytes = prepared.offer.data.params.bytes
  negotiation : request.admission.negotiationId = some prepared.offer.data.negotiationId
  authority : ensureAdmissionAuthority hostId request.admission prepared = .ok ()

theorem ensureExecutionRequestMatches_eq_ok {prepared : PreparedActivation κ} :
    d.ensureExecutionRequestMatches executionId prepared = .ok () ↔
      ∃ request, d.loadExecutionRequest κ executionId = .ok (some request) ∧
        request.failure = none ∧ Authorizes d.hostId request prepared := by
  simp only [ensureExecutionRequestMatches, bind_eq_ok, okOr_eq_ok, ensure_eq_ok]
  constructor
  · rintro ⟨_, hload, request, rfl, _, ⟨hfailure, hprogram, hparams, hnegotiation⟩, hauthority⟩
    exact ⟨request, hload, hfailure, hprogram, hparams, hnegotiation, hauthority⟩
  · rintro ⟨request, hload, hfailure, hprogram, hparams, hnegotiation, hauthority⟩
    exact ⟨_, hload, request, rfl, (), ⟨hfailure, hprogram, hparams, hnegotiation⟩, hauthority⟩

/-- The three ways a preparation returns: first evidence, the same evidence, other evidence. -/
theorem prepareActivation_eq_ok {prepared : PreparedActivation κ} {nowMs : UInt64}
    {outcome : PrepareActivationOutcome κ}
    (h : d.prepareActivation executionId prepared nowMs = .ok (next, outcome)) :
    (d.loadActivation κ executionId = .ok none ∧
      d.ensureExecutionRequestMatches executionId prepared = .ok () ∧
      outcome = .prepared (.newPrepared executionId prepared nowMs) ∧
      ∃ row, (prepared.sessionHash ≠ 0 → row.Written prepared none) ∧
        next = { d with activations := d.activations.insert executionId row }) ∨
    (∃ existing, d.loadActivation κ executionId = .ok (some existing) ∧
      existing.prepared = prepared ∧ next = d ∧
      (outcome = .alreadyPrepared existing ∨ outcome = .alreadyCommitted existing)) ∨
    ∃ existing row, d.loadActivation κ executionId = .ok (some existing) ∧
      existing.prepared ≠ prepared ∧ next = { d with conflicts := d.conflicts ++ [row] } ∧
      outcome = .conflict existing (.newPrepared executionId prepared nowMs) := by
  simp only [prepareActivation, bind_eq_ok, encodeBorsh, okOr_eq_ok,
    Codec.toVec_eq_some_iff] at h
  obtain ⟨_, -, _, ⟨-, rfl⟩, _, -, loaded, hload, h⟩ := h
  split at h
  · simp only [insertActivation, encodeBorsh, bind_eq_ok, ensure_eq_ok, okOr_eq_ok, pure_eq_ok,
      Codec.toVec_eq_some_iff, Prod.mk.injEq] at h
    obtain ⟨_, hmatches, _, ⟨sealed, hseal, _, -, _, ⟨-, rfl⟩, _, -, rfl⟩, rfl, rfl⟩ := h
    exact .inl ⟨hload, hmatches, rfl, _, fun hsession => ⟨hseal, rfl, hsession, rfl, rfl,
      fun _ => rfl, by simp⟩, rfl⟩
  · rename_i existing
    split at h
    · rename_i hsame
      split at h <;> cases h
      · exact .inr (.inl ⟨existing, hload, hsame, rfl, .inl rfl⟩)
      · exact .inr (.inl ⟨existing, hload, hsame, rfl, .inr rfl⟩)
    · rename_i hother
      simp only [recordActivationConflict, bind_eq_ok, pure_eq_ok, Prod.mk.injEq] at h
      obtain ⟨_, ⟨row, -, rfl⟩, rfl, rfl⟩ := h
      exact .inr (.inr ⟨existing, row, hload, hother, rfl, rfl⟩)

/-- The three ways a commitment returns: over prepared evidence, over the same commitment, and
over other evidence or another commitment. -/
theorem commitActivation_eq_ok {activation : Activation κ} {nowMs : UInt64}
    {outcome : CommitActivationOutcome κ}
    (h : d.commitActivation executionId activation nowMs = .ok (next, outcome)) :
    ∃ existing, d.loadActivation κ executionId = .ok (some existing) ∧
      ((existing.prepared = activation.prepared ∧ existing.status = .prepared ∧
        outcome = .committed (.newCommitted executionId activation nowMs) ∧
        ∃ row bytes, d.activations.get? executionId = some row ∧
          DurableEnvelope.«seal» κ .activation (Activation.codec.encode activation) = .ok bytes ∧
          next = { d with activations := d.activations.insert executionId { row with
            status := .committed
            committed := some bytes
            updatedAtMs := nowMs
            facts := ActivationFacts.codec.encode (.of activation.prepared) } }) ∨
      (existing.activation = some activation ∧ next = d ∧ outcome = .alreadyCommitted existing) ∨
      ((existing.prepared ≠ activation.prepared ∨
          existing.status = .committed ∧ existing.activation ≠ some activation) ∧
        outcome = .conflict existing (.newCommitted executionId activation nowMs) ∧
        ∃ row, next = { d with conflicts := d.conflicts ++ [row] })) := by
  simp only [commitActivation, bind_eq_ok, okOr_eq_ok] at h
  obtain ⟨_, -, _, hload, existing, rfl, h⟩ := h
  refine ⟨existing, hload, ?_⟩
  split at h
  · rename_i hother
    simp only [recordActivationConflict, bind_eq_ok, pure_eq_ok, Prod.mk.injEq] at h
    obtain ⟨_, ⟨row, -, rfl⟩, rfl, rfl⟩ := h
    refine .inr (.inr ⟨.inl ?_, rfl, row, rfl⟩)
    intro hsame
    rw [PreparedActivation.matches_iff.2 hsame.symm] at hother
    cases hother
  · rename_i hmatches
    have hsame := (PreparedActivation.matches_iff.1 (Bool.not_eq_false _ ▸ hmatches)).symm
    split at h
    · rename_i hcommitted
      split at h
      · rename_i hequal
        cases h
        exact .inr (.inl ⟨hequal, rfl, rfl⟩)
      · rename_i hdiffers
        simp only [recordActivationConflict, bind_eq_ok, pure_eq_ok, Prod.mk.injEq] at h
        obtain ⟨_, ⟨row, -, rfl⟩, rfl, rfl⟩ := h
        exact .inr (.inr ⟨.inr ⟨hcommitted, hdiffers⟩, rfl, row, rfl⟩)
    · rename_i hprepared
      simp only [updateCommitted, encodeBorsh, bind_eq_ok, okOr_eq_ok, pure_eq_ok,
        Codec.toVec_eq_some_iff, Option.filter_eq_some_iff, Prod.mk.injEq] at h
      obtain ⟨_, ⟨_, ⟨-, rfl⟩, _, -, bytes, hseal, _, ⟨-, rfl⟩, row, ⟨hrow, -⟩, rfl⟩, rfl, rfl⟩ := h
      refine .inl ⟨hsame, ?_, rfl, row, bytes, hrow, hseal, rfl⟩
      cases hstatus : existing.status with
      | prepared => rfl
      | committed => exact absurd hstatus hprepared

end Registry

end Arena0
