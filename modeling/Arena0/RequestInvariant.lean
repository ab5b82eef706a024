import Arena0.Reference
import Arena0.RequestRecords

/-!
# Requests and activations move in one direction

In every registry that the operations write, each row reads back as it was
written, and each activation record belongs to a request that has not failed and
authorizes its evidence.  What was once recorded stays: the selected target of a
join, a failure, the prepared evidence and the committed activation.
-/

namespace Arena0

open Borsh Fallible

variable {κ : Primitives} {row : ActivationRow} {nowMs : UInt64}

/-! ## What later rows keep -/

structure RequestRow.Extends (row later : RequestRow) : Prop where
  programHash : later.programHash = row.programHash
  params : later.params = row.params
  negotiationId : row.negotiationId ≠ none → later.negotiationId = row.negotiationId
  admission : row.negotiationId ≠ none → later.admission = row.admission
  failure : ∀ reason, row.failure = some reason → later.failure = some reason

theorem RequestRow.Extends.refl (row : RequestRow) : row.Extends row :=
  ⟨rfl, rfl, fun _ => rfl, fun _ => rfl, fun _ h => h⟩

theorem RequestRow.Extends.trans {a b c : RequestRow} (hab : a.Extends b) (hbc : b.Extends c) :
    a.Extends c := by
  have hselected : a.negotiationId ≠ none → b.negotiationId ≠ none :=
    fun h => (hab.negotiationId h).symm ▸ h
  refine ⟨hbc.programHash.trans hab.programHash, hbc.params.trans hab.params, ?_, ?_, ?_⟩
  · exact fun h => (hbc.negotiationId (hselected h)).trans (hab.negotiationId h)
  · exact fun h => (hbc.admission (hselected h)).trans (hab.admission h)
  · exact fun reason h => hbc.failure reason (hab.failure reason h)

structure ActivationRow.Extends (row later : ActivationRow) : Prop where
  prepared : later.prepared = row.prepared
  sessionId : later.sessionId = row.sessionId
  committed : ∀ bytes, row.committed = some bytes → later.committed = some bytes

theorem ActivationRow.Extends.refl (row : ActivationRow) : row.Extends row :=
  ⟨rfl, rfl, fun _ h => h⟩

theorem ActivationRow.Extends.trans {a b c : ActivationRow} (hab : a.Extends b)
    (hbc : b.Extends c) : a.Extends c :=
  ⟨hbc.prepared.trans hab.prepared, hbc.sessionId.trans hab.sessionId,
    fun bytes h => hbc.committed bytes (hab.committed bytes h)⟩

namespace Registry

/-- Every row of a registry is in the later one, with what it recorded. -/
structure Extends (d later : Registry) : Prop where
  hostId : later.hostId = d.hostId
  requests : ∀ executionId row, d.requests.get? executionId = some row →
    ∃ row', later.requests.get? executionId = some row' ∧ row.Extends row'
  activations : ∀ executionId row, d.activations.get? executionId = some row →
    ∃ row', later.activations.get? executionId = some row' ∧ row.Extends row'
  conflicts : d.conflicts <+: later.conflicts

variable {d : Registry} {executionId : ExecId} {later : Registry}

theorem extends_of_eq (hhost : later.hostId = d.hostId)
    (hrequests : later.requests = d.requests) (hactivations : later.activations = d.activations)
    (hconflicts : d.conflicts <+: later.conflicts) : d.Extends later := by
  refine ⟨hhost, fun id row h => ⟨row, ?_, .refl row⟩, fun id row h => ⟨row, ?_, .refl row⟩,
    hconflicts⟩
  · rwa [hrequests]
  · rwa [hactivations]

theorem Extends.refl (d : Registry) : d.Extends d := extends_of_eq rfl rfl rfl (List.prefix_refl _)

theorem Extends.trans {a b c : Registry} (hab : a.Extends b) (hbc : b.Extends c) : a.Extends c := by
  refine ⟨hbc.hostId.trans hab.hostId, fun id row hrow => ?_, fun id row hrow => ?_,
    hab.conflicts.trans hbc.conflicts⟩
  · obtain ⟨row', hrow', h⟩ := hab.requests id row hrow
    obtain ⟨row'', hrow'', h'⟩ := hbc.requests id row' hrow'
    exact ⟨row'', hrow'', h.trans h'⟩
  · obtain ⟨row', hrow', h⟩ := hab.activations id row hrow
    obtain ⟨row'', hrow'', h'⟩ := hbc.activations id row' hrow'
    exact ⟨row'', hrow'', h.trans h'⟩

theorem extends_request {row : RequestRow} {lastOrder : ℕ} {blobGrants : List (ExecId × BlobHash)}
    (h : ∀ old, d.requests.get? executionId = some old → old.Extends row) :
    d.Extends { d with
      requests := d.requests.insert executionId row
      lastOrder := lastOrder
      blobGrants := blobGrants } :=
  ⟨rfl, OrdMap.keeps_insert RequestRow.Extends.refl h, fun _ row h => ⟨row, h, .refl row⟩,
    List.prefix_refl _⟩

theorem extends_activation
    (h : ∀ old, d.activations.get? executionId = some old → old.Extends row) :
    d.Extends { d with activations := d.activations.insert executionId row } :=
  ⟨rfl, fun _ row h => ⟨row, h, .refl row⟩, OrdMap.keeps_insert ActivationRow.Extends.refl h,
    List.prefix_refl _⟩

/-! ## The invariant -/

/-- Rows read back, and every activation record belongs to a request that authorizes it. -/
structure Intact (κ : Primitives) (d : Registry) : Prop where
  requests : ∀ executionId row, d.requests.get? executionId = some row →
    ∃ admission, ∃ params : Option (JsonBytes κ), row.Written d.hostId admission params
  activations : ∀ executionId row, d.activations.get? executionId = some row →
    ∃ (prepared : PreparedActivation κ) (committed : Option (Activation κ)),
      row.Written prepared committed ∧
        d.ensureExecutionRequestMatches executionId prepared = .ok ()

theorem intact_empty (hostId : PeerId) : (empty hostId).Intact κ :=
  ⟨fun _ _ h => (nomatch h), fun _ _ h => (nomatch h)⟩

theorem Intact.loadExecutionRequest (h : d.Intact κ) {row : RequestRow}
    (hrow : d.requests.get? executionId = some row) :
    ∃ admission params, row.Written d.hostId admission params ∧
      d.loadExecutionRequest κ executionId =
        .ok (some (row.request executionId admission params)) := by
  obtain ⟨admission, params, hwritten⟩ := h.requests executionId row hrow
  exact ⟨admission, params, hwritten, loadExecutionRequest_eq_some.2
    ⟨row, hrow, hwritten.decodeRequest executionId⟩⟩

theorem Intact.loadActivation (h : d.Intact κ) (hrow : d.activations.get? executionId = some row) :
    ∃ prepared committed, row.Written prepared committed ∧
      d.ensureExecutionRequestMatches executionId prepared = .ok () ∧
      d.loadActivation κ executionId =
        .ok (some (row.record executionId prepared committed)) := by
  obtain ⟨prepared, committed, hwritten, hmatches⟩ := h.activations executionId row hrow
  exact ⟨prepared, committed, hwritten, hmatches, loadActivation_eq_some.2
    ⟨row, hrow, hwritten.decodeActivation executionId⟩⟩

theorem ensureExecutionRequestMatches_congr {prepared : PreparedActivation κ}
    (hhost : later.hostId = d.hostId)
    (hrow : later.requests.get? executionId = d.requests.get? executionId) :
    later.ensureExecutionRequestMatches executionId prepared =
      d.ensureExecutionRequestMatches executionId prepared := by
  simp only [ensureExecutionRequestMatches, Registry.loadExecutionRequest, hhost, hrow]

private theorem Intact.of_eq (h : d.Intact κ) (hhost : later.hostId = d.hostId)
    (hrequests : later.requests = d.requests) (hactivations : later.activations = d.activations) :
    later.Intact κ := by
  refine ⟨fun id row hrow => ?_, fun id row hrow => ?_⟩
  · rw [hrequests] at hrow
    rw [hhost]
    exact h.requests id row hrow
  · rw [hactivations] at hrow
    obtain ⟨prepared, committed, hwritten, hmatches⟩ := h.activations id row hrow
    refine ⟨prepared, committed, hwritten, ?_⟩
    rw [ensureExecutionRequestMatches_congr hhost (by rw [hrequests])]
    exact hmatches

theorem Intact.writeRequest (h : d.Intact κ) {row : RequestRow} {admission : ExecutionAdmission}
    {params : Option (JsonBytes κ)} {lastOrder : ℕ} {blobGrants : List (ExecId × BlobHash)}
    (hnone : d.activations.get? executionId = none)
    (hwritten : row.Written d.hostId admission params) :
    { d with
      requests := d.requests.insert executionId row
      lastOrder := lastOrder
      blobGrants := blobGrants }.Intact κ := by
  refine ⟨OrdMap.forall_insert (fun id row _ hrow => h.requests id row hrow)
    ⟨admission, params, hwritten⟩, fun id activation hactivation => ?_⟩
  obtain ⟨prepared, committed, hactivated, hmatches⟩ := h.activations id activation hactivation
  refine ⟨prepared, committed, hactivated, ?_⟩
  have hne : id ≠ executionId := by
    rintro rfl
    rw [hnone] at hactivation
    cases hactivation
  refine (ensureExecutionRequestMatches_congr ?_ ?_).trans hmatches
  · rfl
  · exact OrdMap.get?_insert_of_ne d.requests row hne

theorem Intact.writeActivation (h : d.Intact κ)
    {prepared : PreparedActivation κ} {committed : Option (Activation κ)}
    (hwritten : row.Written prepared committed)
    (hmatches : d.ensureExecutionRequestMatches executionId prepared = .ok ()) :
    { d with activations := d.activations.insert executionId row }.Intact κ :=
  ⟨h.requests, OrdMap.forall_insert (fun id row _ hrow => h.activations id row hrow)
    ⟨prepared, committed, hwritten, hmatches⟩⟩

/-! ## One transaction -/

/-- A step from an intact registry: intact again, with everything that was recorded. -/
structure Advances (κ : Primitives) (d next : Registry) : Prop where
  intact : next.Intact κ
  extended : d.Extends next

private theorem Intact.stays (h : d.Intact κ) : d.Advances κ d := ⟨h, .refl d⟩

theorem Intact.conflict (h : d.Intact κ) (row : ConflictRow) :
    d.Advances κ { d with conflicts := d.conflicts ++ [row] } :=
  ⟨h.of_eq rfl rfl rfl, extends_of_eq rfl rfl rfl (List.prefix_append _ _)⟩

variable {next : Registry}

theorem Intact.createExecutionRequest (h : d.Intact κ) {programHash : ProgramHash}
    {params : Option (JsonBytes κ)} {admission : ExecutionAdmission} {grants : List BlobHash}
    {createdAtMs : UInt64} {outcome : ExecutionRequestOutcome}
    (hresult : d.createExecutionRequest executionId programHash params admission grants
      createdAtMs = .ok (next, outcome)) : d.Advances κ next := by
  obtain ⟨rfl, -⟩ | ⟨hnew, -, row, blobGrants, hwritten, -, -, rfl⟩ :=
    createExecutionRequest_eq_ok hresult
  · exact h.stays
  · have hnone : d.activations.get? executionId = none := by
      cases hactivation : d.activations.get? executionId with
      | none => rfl
      | some activation =>
        -- a record has a request
        obtain ⟨prepared, committed, -, hmatches⟩ := h.activations executionId activation hactivation
        obtain ⟨request, hload, -⟩ := ensureExecutionRequestMatches_eq_ok.1 hmatches
        obtain ⟨old, hold, -⟩ := loadExecutionRequest_eq_some.1 hload
        rw [hnew] at hold
        cases hold
    refine ⟨h.writeRequest hnone hwritten, extends_request fun old hold => ?_⟩
    rw [hnew] at hold
    cases hold

theorem Intact.bindJoinTarget (h : d.Intact κ) {target : NegotiationTarget}
    {outcome : AdmissionBindingOutcome}
    (hresult : d.bindJoinTarget κ executionId target = .ok (next, outcome)) :
    d.Advances κ next := by
  obtain ⟨rfl, -⟩ | ⟨-, hcreator, hnone, row, request, sealed, hrow, hrequest, -, hopen, hseal,
    rfl⟩ := bindJoinTarget_eq_ok hresult
  · exact h.stays
  · obtain ⟨admission, params, hwritten⟩ := h.requests executionId row hrow
    rw [hwritten.decodeRequest executionId] at hrequest
    cases hrequest
    obtain rfl : admission = .join none := hopen
    have hbound : RequestRow.Written d.hostId
        { row with admission := sealed, negotiationId := some target.negotiationId }
        (.join (some target)) params :=
      { hwritten with
        sealed := hseal, authority := ensure_eq_ok.2 hcreator, has_params := rfl
        negotiationId := rfl }
    refine ⟨h.writeRequest hnone hbound, extends_request fun old hold => ?_⟩
    obtain rfl := Option.some.inj (hrow.symm.trans hold)
    -- an open join has no negotiation to keep
    have hopen' : row.negotiationId = none := hwritten.negotiationId
    exact ⟨rfl, rfl, fun h => absurd hopen' h, fun h => absurd hopen' h, fun _ hf => hf⟩

theorem Intact.recordExecutionRequestFailure (h : d.Intact κ) {reason : String}
    {outcome : ExecutionRequestFailureOutcome}
    (hresult : d.recordExecutionRequestFailure κ executionId reason = .ok (next, outcome)) :
    d.Advances κ next := by
  obtain ⟨rfl, -⟩ | ⟨-, hreason, hnone, row, request, hrow, hrequest, hfailure, rfl⟩ :=
    recordExecutionRequestFailure_eq_ok hresult
  · exact h.stays
  · obtain ⟨admission, params, hwritten⟩ := h.requests executionId row hrow
    rw [hwritten.decodeRequest executionId] at hrequest
    cases hrequest
    have hfailed : RequestRow.Written d.hostId { row with failure := some reason } admission
        params :=
      { hwritten with failure_le := by simpa using hreason }
    refine ⟨h.writeRequest hnone hfailed, extends_request fun old hold => ?_⟩
    obtain rfl := Option.some.inj (hrow.symm.trans hold)
    refine ⟨rfl, rfl, fun _ => rfl, fun _ => rfl, fun other hother => ?_⟩
    have habsurd : none = some other := hfailure.symm.trans hother
    cases habsurd

theorem Intact.prepareActivation (h : d.Intact κ) {prepared : PreparedActivation κ}
    {outcome : PrepareActivationOutcome κ} (hsession : prepared.sessionHash ≠ 0)
    (hresult : d.prepareActivation executionId prepared nowMs = .ok (next, outcome)) :
    d.Advances κ next := by
  obtain ⟨hload, hmatches, -, row, hwritten, rfl⟩ | ⟨_, -, -, rfl, -⟩ | ⟨_, row, -, -, rfl, -⟩ :=
    prepareActivation_eq_ok hresult
  · have hnone := (loadActivation_eq_none κ).1 hload
    refine ⟨h.writeActivation (hwritten hsession) hmatches, extends_activation fun old hold => ?_⟩
    rw [hnone] at hold
    cases hold
  · exact h.stays
  · exact h.conflict row

theorem Intact.commitActivation (h : d.Intact κ) {activation : Activation κ}
    {outcome : CommitActivationOutcome κ}
    (hresult : d.commitActivation executionId activation nowMs = .ok (next, outcome)) :
    d.Advances κ next := by
  obtain ⟨existing, hload, ⟨hsame, hstatus, -, row, bytes, hrow, hseal, rfl⟩ | ⟨-, rfl, -⟩ |
    ⟨-, -, row, rfl⟩⟩ := commitActivation_eq_ok hresult
  · obtain ⟨prepared, committed, hwritten, hmatches, hread⟩ := h.loadActivation hrow
    obtain rfl := Option.some.inj (Except.ok.inj (hload.symm.trans hread))
    rw [ActivationRow.record_prepared] at hsame
    subst hsame
    -- the record is only prepared, so its row has no committed evidence to keep
    have hcommitted : committed = none := by
      rw [ActivationRow.record_status] at hstatus
      cases committed with
      | none => rfl
      | some other => cases hstatus
    have hrow' := hwritten.none_committed hcommitted
    have hnext : ActivationRow.Written { row with
        status := .committed
        committed := some bytes
        updatedAtMs := nowMs
        facts := ActivationFacts.codec.encode (.of activation.prepared) } activation.prepared
        (some activation) := by
      refine ⟨hwritten.sealed, hwritten.sessionId, hwritten.session_ne, rfl, rfl, nofun, ?_⟩
      intro other hother
      cases hother
      exact ⟨rfl, bytes, rfl, hseal⟩
    refine ⟨h.writeActivation hnext hmatches, extends_activation fun old hold => ?_⟩
    obtain rfl := Option.some.inj (hrow.symm.trans hold)
    refine ⟨rfl, rfl, fun other hother => ?_⟩
    rw [hrow'] at hother
    cases hother
  · exact h.stays
  · exact h.conflict row

/-! ## Runs -/

theorem Intact.settle {α : Type} (h : d.Intact κ) {result : Except StoreError (Registry × α)}
    (hresult : ∀ next value, result = .ok (next, value) → d.Advances κ next) :
    d.Advances κ (d.settle result) := by
  cases result with
  | error error => exact h.stays
  | ok p => exact hresult p.1 p.2 rfl

end Registry

/-- A preparation names a session with an identity other than the reserved zero hash. -/
def RegistryAction.NamesSession : RegistryAction κ → Prop
  | .prepare _ prepared _ => prepared.sessionHash ≠ 0
  | _ => True

namespace Registry

variable {d later : Registry} {executionId : ExecId}

/-- Whatever the action, with any arguments, the registry advances. -/
private theorem Intact.step (h : d.Intact κ) {action : RegistryAction κ}
    (haction : action.NamesSession) : d.Advances κ (d.step action) := by
  have hother : ∀ {later : Registry}, later.hostId = d.hostId → later.requests = d.requests →
      later.activations = d.activations → later.conflicts = d.conflicts → d.Advances κ later :=
    fun hhost hrequests hactivations hconflicts =>
      ⟨h.of_eq hhost hrequests hactivations,
        extends_of_eq hhost hrequests hactivations (hconflicts ▸ List.prefix_refl _)⟩
  cases action with
  | createRequest => exact h.settle fun _ _ hresult => h.createExecutionRequest hresult
  | bindJoinTarget => exact h.settle fun _ _ hresult => h.bindJoinTarget hresult
  | recordFailure => exact h.settle fun _ _ hresult => h.recordExecutionRequestFailure hresult
  | prepare => exact h.settle fun _ _ hresult => h.prepareActivation haction hresult
  | commit => exact h.settle fun _ _ hresult => h.commitActivation hresult
  | storeProgram hash => exact hother rfl rfl rfl rfl
  | removeProgram hash nowMs =>
    simp only [Registry.step]
    split
    · exact hother rfl rfl rfl rfl
    · exact h.stays
  | storeBlob hash => exact hother rfl rfl rfl rfl
  | grantBlob executionId hash => exact hother rfl rfl rfl rfl
  | setLifecycle executionId lifecycle =>
    simp only [Registry.step]
    split
    · exact hother rfl rfl rfl rfl
    · exact h.stays
  | crash => exact h.stays

theorem Intact.run (h : d.Intact κ) {actions : List (RegistryAction κ)}
    (hactions : ∀ action ∈ actions, action.NamesSession) : d.Advances κ (d.run actions) := by
  induction actions generalizing d with
  | nil => exact h.stays
  | cons action actions ih =>
    have hstep := h.step (hactions action (by simp))
    have hrest := ih hstep.intact fun a ha => hactions a (by simp [ha])
    exact ⟨hrest.intact, hstep.extended.trans hrest.extended⟩

/-! ## The checks of an opening store pass -/

theorem Intact.validateExecutionRequest (h : d.Intact κ) {executionId : ExecId} {row : RequestRow}
    (hrow : d.requests.get? executionId = some row) :
    d.validateExecutionRequest κ executionId row = .ok () := by
  obtain ⟨admission, params, hwritten, hrequest⟩ := h.loadExecutionRequest hrow
  have hlength := length_le_of_open (open_sealAdmission hwritten.sealed)
  have hparams : ∀ bytes ∈ row.params, bytes.length ≤ maxParamsLen := by
    intro bytes hbytes
    rw [hwritten.params_eq, Option.mem_map] at hbytes
    obtain ⟨json, hjson, rfl⟩ := hbytes
    exact hwritten.params_le json hjson
  simp only [Registry.validateExecutionRequest, validateNegotiationIndex, bind_eq_ok, ensure_eq_ok,
    mapError_eq_ok]
  refine ⟨(), ⟨hwritten.order, hparams, hlength, hwritten.failure_le⟩, admission,
    hwritten.decodeAdmission, (), hwritten.negotiationId, (), hwritten.authority, params,
    hwritten.decodeParams _, (), hwritten.has_params, ?_⟩
  cases hactivation : d.activations.get? executionId with
  | none =>
    refine ⟨none, (loadActivation_eq_none κ).2 hactivation, (), by simp, ?_⟩
    cases d.programs.get? row.programHash <;> rfl
  | some activation =>
    obtain ⟨prepared, committed, -, hmatches, hload⟩ := h.loadActivation hactivation
    obtain ⟨request, hloaded, hfailure, hauth⟩ := ensureExecutionRequestMatches_eq_ok.1 hmatches
    obtain rfl := Option.some.inj (Except.ok.inj (hrequest.symm.trans hloaded))
    have hnone : row.failure = none := hfailure
    refine ⟨_, hload, (), by simp [hnone], ?_⟩
    cases d.programs.get? row.programHash with
    | none => rfl
    | some removed =>
      simp only [ActivationRow.record_prepared, bind_eq_ok, ensure_eq_ok, mapError_eq_ok]
      exact ⟨(), ⟨hauth.program.symm, fun json hjson => (hauth.params json hjson).symm,
        hauth.negotiation⟩, hauth.authority⟩

theorem Intact.validateExecutionRequests (h : d.Intact κ) :
    d.validateExecutionRequests κ = .ok () := by
  simp only [Registry.validateExecutionRequests, forAll_eq_ok, List.mem_insertionSort]
  rintro ⟨executionId, row⟩ hmem
  split
  · rfl
  · exact h.validateExecutionRequest ((d.requests.mem_entries_iff executionId row).1 hmem)

/-! ## One direction -/

theorem Extends.target (hextends : d.Extends later) (h : d.Intact κ) (hlater : later.Intact κ)
    {request : ExecutionRequest κ} {target : NegotiationTarget}
    (hload : d.loadExecutionRequest κ executionId = .ok (some request))
    (htarget : request.admission.target = some target) :
    ∃ request', later.loadExecutionRequest κ executionId = .ok (some request') ∧
      request'.admission.target = some target := by
  obtain ⟨row, hrow, hrequest⟩ := loadExecutionRequest_eq_some.1 hload
  obtain ⟨admission, params, hwritten⟩ := h.requests executionId row hrow
  rw [hwritten.decodeRequest executionId] at hrequest
  cases hrequest
  have htarget' : admission.target = some target := htarget
  have hselected : row.negotiationId ≠ none := by
    rw [hwritten.negotiationId]
    cases admission with
    | create => cases htarget'
    | join selected =>
      obtain rfl : selected = some target := htarget'
      exact nofun
  obtain ⟨row', hrow', hrows⟩ := hextends.requests executionId row hrow
  obtain ⟨admission', params', hwritten', hload'⟩ := hlater.loadExecutionRequest hrow'
  refine ⟨_, hload', ?_⟩
  have hsame := hwritten'.decodeAdmission
  rw [hrows.admission hselected, hwritten.decodeAdmission] at hsame
  cases hsame
  exact htarget'

theorem Extends.evidence (hextends : d.Extends later) (h : d.Intact κ) (hlater : later.Intact κ)
    (hrow : d.activations.get? executionId = some row) :
    ∃ record record', d.loadActivation κ executionId = .ok (some record) ∧
      later.loadActivation κ executionId = .ok (some record') ∧
      record'.prepared = record.prepared ∧
      ∀ activation, record.activation = some activation → record'.activation = some activation := by
  obtain ⟨row', hrow', hrows⟩ := hextends.activations executionId row hrow
  obtain ⟨prepared, committed, hwritten, -, hload⟩ := h.loadActivation hrow
  obtain ⟨prepared', committed', hwritten', -, hload'⟩ := hlater.loadActivation hrow'
  obtain rfl := hwritten.prepared_eq hwritten' hrows.prepared
  refine ⟨_, _, hload, hload', by simp, fun activation hactivation => ?_⟩
  rw [ActivationRow.record_activation] at hactivation ⊢
  obtain ⟨-, bytes, hbytes, -⟩ := hwritten.some_committed activation hactivation
  have hread := hwritten'.decodeCommitted
  rw [hrows.committed bytes hbytes, ← hbytes, hwritten.decodeCommitted] at hread
  exact (Except.ok.inj hread).symm.trans hactivation

/-- Evidence that is not the recorded evidence, or that its request does not authorize, is at most
logged. -/
private theorem step_prepare_mismatch {prepared : PreparedActivation κ}
    (hrecord : ∀ record, d.loadActivation κ executionId = .ok (some record) →
      record.prepared ≠ prepared)
    (hrequest : d.loadActivation κ executionId = .ok none →
      d.ensureExecutionRequestMatches executionId prepared ≠ .ok ()) :
    ∃ log, d.step (.prepare executionId prepared nowMs) =
      { d with conflicts := d.conflicts ++ log } := by
  cases hresult : d.prepareActivation executionId prepared nowMs with
  | error error => exact ⟨[], by simp [Registry.step, Registry.settle, hresult]⟩
  | ok p =>
    obtain ⟨next, outcome⟩ := p
    obtain ⟨hload, hmatches, -⟩ | ⟨existing, hload, hsame, -⟩ | ⟨_, row, -, -, rfl, -⟩ :=
      prepareActivation_eq_ok hresult
    · exact absurd hmatches (hrequest hload)
    · exact absurd hsame (hrecord existing hload)
    · exact ⟨[row], by simp [Registry.step, Registry.settle, hresult]⟩

private theorem step_commit_mismatch {activation : Activation κ}
    (hrecord : ∀ record, d.loadActivation κ executionId = .ok (some record) →
      record.prepared ≠ activation.prepared ∨
        ∃ other, record.activation = some other ∧ other ≠ activation) :
    ∃ log, d.step (.commit executionId activation nowMs) =
      { d with conflicts := d.conflicts ++ log } := by
  cases hresult : d.commitActivation executionId activation nowMs with
  | error error => exact ⟨[], by simp [Registry.step, Registry.settle, hresult]⟩
  | ok p =>
    obtain ⟨next, outcome⟩ := p
    obtain ⟨existing, hload, ⟨hsame, hstatus, -⟩ | ⟨-, rfl, -⟩ | ⟨-, -, row, rfl⟩⟩ :=
      commitActivation_eq_ok hresult
    · obtain hother | ⟨other, hother, -⟩ := hrecord existing hload
      · exact absurd hsame hother
      · -- a record that is only prepared has no commitment
        obtain ⟨executionId, state, updatedAtMs⟩ := existing
        cases state with
        | prepared evidence => cases hother
        | committed evidence activation => cases hstatus
    · exact ⟨[], by simp [Registry.step, Registry.settle, hresult]⟩
    · exact ⟨[row], by simp [Registry.step, Registry.settle, hresult]⟩

end Registry

/-- Requests and activation records move in one direction only.  In the registry of every run, and
from it to every later one: a failed request has no activation record; a selected join target is
selected later too; recorded evidence reads back and is the evidence of the later record; a
committed activation is the prepared evidence with an aggregate, authorized by its request; a
preparation or commitment that does not match writes at most the conflict log; and the checks of an
opening store pass. -/
theorem request_records_one_direction (hostId : PeerId) (actions more : List (RegistryAction κ))
    (hsessions : ∀ action ∈ actions ++ more, action.NamesSession) :
    let d := (Registry.empty hostId).run actions
    let later := d.run more
    (∀ executionId request activation, d.requests.get? executionId = some request →
      d.activations.get? executionId = some activation → request.failure = none) ∧
    (∀ executionId request target, d.loadExecutionRequest κ executionId = .ok (some request) →
      request.admission.target = some target →
      ∃ request', later.loadExecutionRequest κ executionId = .ok (some request') ∧
        request'.admission.target = some target) ∧
    (∀ executionId row, d.activations.get? executionId = some row →
      ∃ record record', d.loadActivation κ executionId = .ok (some record) ∧
        later.loadActivation κ executionId = .ok (some record') ∧
        record'.prepared = record.prepared ∧
        ∀ activation, record.activation = some activation →
          record'.activation = some activation) ∧
    (∀ executionId record activation, d.loadActivation κ executionId = .ok (some record) →
      record.activation = some activation → activation.prepared = record.prepared ∧
        ∃ request, d.loadExecutionRequest κ executionId = .ok (some request) ∧
          Registry.Authorizes hostId request activation.prepared) ∧
    (∀ executionId (prepared : PreparedActivation κ) nowMs,
      (∀ record, d.loadActivation κ executionId = .ok (some record) →
        record.prepared ≠ prepared) →
      (d.loadActivation κ executionId = .ok none →
        d.ensureExecutionRequestMatches executionId prepared ≠ .ok ()) →
      ∃ log, d.step (.prepare executionId prepared nowMs) =
        { d with conflicts := d.conflicts ++ log }) ∧
    (∀ executionId (activation : Activation κ) nowMs,
      (∀ record, d.loadActivation κ executionId = .ok (some record) →
        record.prepared ≠ activation.prepared ∨
          ∃ other, record.activation = some other ∧ other ≠ activation) →
      ∃ log, d.step (.commit executionId activation nowMs) =
        { d with conflicts := d.conflicts ++ log }) ∧
    d.validateExecutionRequests κ = .ok () := by
  intro d later
  have hd := (Registry.intact_empty hostId).run
    fun action haction => hsessions action (List.mem_append_left more haction)
  have hintact : d.Intact κ := hd.intact
  have hhost : d.hostId = hostId := hd.extended.hostId
  have hlater := hintact.run
    fun action haction => hsessions action (List.mem_append_right actions haction)
  refine ⟨?_, fun executionId request target => hlater.extended.target hintact hlater.intact,
    fun executionId row => hlater.extended.evidence hintact hlater.intact, ?_,
    fun _ _ _ => Registry.step_prepare_mismatch, fun _ _ _ => Registry.step_commit_mismatch,
    hintact.validateExecutionRequests⟩
  · intro executionId request activation hrequest hactivation
    obtain ⟨prepared, committed, -, hmatches⟩ := hintact.activations _ _ hactivation
    obtain ⟨loaded, hload, hfailure, -⟩ :=
      Registry.ensureExecutionRequestMatches_eq_ok.1 hmatches
    obtain ⟨admission, params, -, hread⟩ := hintact.loadExecutionRequest hrequest
    obtain rfl := Option.some.inj (Except.ok.inj (hload.symm.trans hread))
    exact hfailure
  · intro executionId record activation hload hactivation
    obtain ⟨row, hrow, -⟩ := Registry.loadActivation_eq_some.1 hload
    obtain ⟨prepared, committed, hwritten, hmatches, hread⟩ := hintact.loadActivation hrow
    obtain rfl := Option.some.inj (Except.ok.inj (hload.symm.trans hread))
    rw [ActivationRow.record_activation] at hactivation
    obtain ⟨hprepared, -⟩ := hwritten.some_committed activation hactivation
    obtain ⟨request, hloaded, -, hauthorizes⟩ :=
      Registry.ensureExecutionRequestMatches_eq_ok.1 hmatches
    rw [hhost, ← hprepared] at hauthorizes
    exact ⟨hprepared.trans (ActivationRow.record_prepared ..).symm, request, hloaded, hauthorizes⟩

namespace Sample

/-- An open join of the second participant, up to its committed activation. -/
def joinActions : List (RegistryAction referencePrimitives) :=
  [.storeProgram offerData.programHash,
    .createRequest executionId offerData.programHash none (.join none) [] 1,
    .bindJoinTarget executionId ⟨peer 1, offerData.negotiationId⟩,
    .prepare executionId prepared 2, .crash, .commit executionId activation 3]

end Sample

open Sample in
theorem request_records_one_direction_joined :
    ((((Registry.empty (peer 2)).run joinActions).activations.get?
      Sample.executionId).map (·.status) = some .committed) ∧
    ((Registry.empty (peer 2)).run joinActions).validateExecutionRequests
      referencePrimitives = .ok () := by
  have hsessions : ∀ action ∈ joinActions ++ [], action.NamesSession := by
    intro action haction
    simp only [joinActions, List.append_nil, List.mem_cons, List.not_mem_nil, or_false]
      at haction
    have hne : prepared.sessionHash ≠ 0 := by decide +kernel
    obtain rfl | rfl | rfl | rfl | rfl | rfl := haction <;>
      first | exact trivial | exact hne
  obtain ⟨-, -, -, -, -, -, hvalid⟩ :=
    request_records_one_direction (peer 2) joinActions [] hsessions
  exact ⟨by decide +kernel, hvalid⟩

end Arena0
