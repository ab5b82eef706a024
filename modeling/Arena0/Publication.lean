import Arena0.ReferenceHost

/-!
# Publishing the receipt

A terminal execution can always publish: the stored trace and the terminal
evidence of the status form a receipt that authenticates, stays inside the
reserve made from the activation, survives its own encoding and is accepted by
the aggregate.
-/

namespace Arena0

open Borsh Fallible Actor ExecutionState

variable {κ : Primitives}

def Db.receiptBody (db : Db κ) (terminal : ReceiptTermination) (outcome : Bytes)
    (entries : List TraceEntry) : ReceiptBody κ :=
  ⟨⟨db.activation, terminal⟩, outcome, db.activation.offer.data.params.bytes, entries⟩

/-- The terminal evidence of a body, checked against the session. -/
def checkTermination (b : ExecutionBinding κ) (body : ReceiptBody κ) : Except ProtocolError Unit :=
  match body.header.terminal with
  | .completed => do
    let _ ← validateReceiptTrace b body.trace (.completed body.outcome)
  | .stopped cause => validateStoppedReceipt b body cause

/-- The evidence a terminal status contributes to the receipt. -/
structure Publishable (db : Db κ) (entries : List TraceEntry) (terminal : ReceiptTermination)
    (outcome : Bytes) : Prop where
  termination : Db.receiptTermination db.state.status = .ok terminal
  outcome_eq : ((Db.terminalOutcome db.state.status).map (·.borsh)).getD [] = outcome
  codec_valid : ReceiptTermination.codec.valid terminal = true
  outcome_le : outcome.length ≤ maxTerminalOutcomeBytes
  size_le : (ReceiptTermination.codec.encode terminal).length + outcome.length ≤
    1 + maxTerminalOutcomeBytes
  shape : ∀ cause, terminal = .stopped cause → cause.validate = .ok () ∧ outcome = []
  evidence : checkTermination db.state.binding (db.receiptBody terminal outcome entries) = .ok ()
  published : ∀ artifact : ReceiptArtifact κ,
    artifact.body = db.receiptBody terminal outcome entries →
      ∃ status, db.state.publishedStatus artifact = .ok status

/-! ## Bodies -/

section Body

variable {db : Db κ} {entries : List TraceEntry} {terminal : ReceiptTermination} {outcome : Bytes}
  (hp : Publishable db entries terminal outcome) (h : db.Ledger entries)
  (hrec : db.state.Recoverable) (hactivation : db.activation = db.state.binding.activation)

include hp h hrec

theorem Publishable.fieldsCodec_valid :
    ReceiptBody.fieldsCodec.valid (db.receiptBody terminal outcome entries) = true := by
  have hlength : entries.length ≤ maxReceiptTraceEntries := h.length_eq ▸ hrec.step_le
  have hentries : ∀ entry ∈ entries, TraceEntry.codec.valid entry = true := by
    intro entry he
    obtain ⟨hversion, hfits, -⟩ := validateTraceEntry_eq_ok.1 (h.certified.entry_valid he)
    exact TraceEntry.codec_valid hversion hfits
  simp only [ReceiptBody.fieldsCodec, SessionHeader.codec, Codec.equiv_valid, Codec.pair_valid,
    Codec.byteVec_valid, Codec.vec_valid, Db.receiptBody, Equiv.coe_fn_symm_mk,
    Activation.codec_valid, hp.codec_valid, Bool.and_eq_true, decide_eq_true_eq, List.all_eq_true]
  exact ⟨⟨trivial, trivial⟩, hp.outcome_le, db.activation.params_le, hlength, hentries⟩

include hactivation

theorem Publishable.length_le :
    (receiptVersion :: (db.receiptBody terminal outcome entries).encode).length ≤
      db.state.traceBytes + db.state.receiptOverhead := by
  obtain ⟨-, -, hoverhead⟩ := ReceiptArtifact.reservedOverhead_eq_ok.1 hrec.overhead
  have hsize := hp.size_le
  simp only [List.length_cons, ReceiptBody.length_encode, Db.receiptBody, h.bytes, hoverhead,
    ReceiptArtifact.reserve, hactivation]
  omega

theorem Publishable.validateShape_eq_ok :
    (db.receiptBody terminal outcome entries).validateShape = .ok () := by
  have hfits := ReceiptBody.fieldsCodec.fits_of_valid _ (hp.fieldsCodec_valid h hrec)
  have hlen := hp.length_le h hrec hactivation
  have hbudget := hrec.budget
  have hlength : entries.length ≤ maxReceiptTraceEntries := h.length_eq ▸ hrec.step_le
  simp only [List.length_cons] at hlen
  simp only [ReceiptBody.validateShape, ensureEncoded, bind_eq_ok, ReceiptBody.toVec_eq_ok,
    ensure_eq_ok, forAll_eq_ok]
  refine ⟨_, ⟨hfits, rfl⟩, (), by omega, (), hlength, (), fun _ he => h.certified.entry_valid he, ?_⟩
  cases terminal with
  | completed => rfl
  | stopped cause =>
    obtain ⟨hvalid, houtcome⟩ := hp.shape cause rfl
    exact bind_eq_ok.2 ⟨(), hvalid, ensure_eq_ok.2 houtcome⟩

/-! ## The published artifact -/

theorem Publishable.validateReceiptBody_eq_ok :
    validateReceiptBody db.state.binding (db.receiptBody terminal outcome entries) = .ok () := by
  have hshape := hp.validateShape_eq_ok h hrec hactivation
  have hevidence := hp.evidence
  simp only [validateReceiptBody, bind_eq_ok, ensure_eq_ok, mapError_eq_ok]
  refine ⟨(), hshape, (), db.activation.validate_eq_ok, (), ⟨hactivation, ?_, ?_, ?_⟩, hevidence⟩
  · exact congrArg Activation.sessionHash hactivation
  · exact congrArg (fun a : Activation κ => a.offer.data.programHash) hactivation
  · exact congrArg (fun a : Activation κ => a.offer.data.params.bytes) hactivation

theorem Publishable.authenticate_eq_ok :
    ∃ id, authenticate (db.receiptBody terminal outcome entries) = .ok id ∧
      encodeArtifact (db.receiptBody terminal outcome entries) =
        .ok (receiptVersion :: (db.receiptBody terminal outcome entries).encode) := by
  have hfits := ReceiptBody.fieldsCodec.fits_of_valid _ (hp.fieldsCodec_valid h hrec)
  have hvec : (db.receiptBody terminal outcome entries).toVec =
      .ok (db.receiptBody terminal outcome entries).encode := ReceiptBody.toVec_eq_ok.2 ⟨hfits, rfl⟩
  have hlen := (hp.length_le h hrec hactivation).trans hrec.budget
  have hbody := hp.validateReceiptBody_eq_ok h hrec hactivation
  have hbinding : (⟨db.activation⟩ : ExecutionBinding κ) = db.state.binding := by
    rw [hactivation]
  have hencode : encodeArtifact (db.receiptBody terminal outcome entries) =
      .ok (receiptVersion :: (db.receiptBody terminal outcome entries).encode) := by
    simp only [encodeArtifact, hvec, ensurePayload, ok_bind, bind_eq_ok, ensure_eq_ok, pure_eq_ok]
    exact ⟨(), hlen, trivial⟩
  simp only [List.length_cons] at hlen
  obtain ⟨id, hid⟩ : ∃ id, ReceiptId.deriveBody (db.receiptBody terminal outcome entries) =
      .ok id := by
    simp only [ReceiptId.deriveBody, hvec, ensurePayload, ok_bind, bind_eq_ok, ensure_eq_ok,
      pure_eq_ok]
    exact ⟨_, (), by omega, rfl⟩
  refine ⟨id, ?_, hencode⟩
  simp only [authenticate, ExecutionBinding.new, hid, hencode, ok_bind, bind_eq_ok, mapError_eq_ok,
    pure_eq_ok]
  refine ⟨_, ⟨(), db.activation.validate_eq_ok, rfl⟩, (), ?_, trivial⟩
  exact hbinding.symm ▸ hbody

/-- A publishable execution assembles its receipt, the receipt fits and reads back, and the
aggregate accepts it. -/
theorem Publishable.publish (hversion : db.state.version.toNat < 2 ^ 63) :
    ∃ artifact bytes next, db.assembleReceipt db.state = .ok artifact ∧
      artifact.encode = .ok bytes ∧
      bytes.length ≤ db.state.traceBytes + db.state.receiptOverhead ∧
      db.state.traceBytes + db.state.receiptOverhead ≤ maxReceiptBytes ∧
      ReceiptArtifact.decode bytes = .ok artifact ∧
      db.state.publishReceipt artifact = .ok next := by
  obtain ⟨id, hauthentic, hencode⟩ := hp.authenticate_eq_ok h hrec hactivation
  have hshape := hp.validateShape_eq_ok h hrec hactivation
  have hnew : ReceiptArtifact.new (db.receiptBody terminal outcome entries) =
      .ok ⟨db.receiptBody terminal outcome entries, id, hauthentic⟩ := by
    unfold ReceiptArtifact.new
    split
    · rename_i id' h'
      obtain rfl := Except.ok.inj (hauthentic.symm.trans h')
      rfl
    · rename_i error h'
      rw [hauthentic] at h'
      cases h'
  obtain ⟨status, hstatus⟩ := hp.published ⟨_, id, hauthentic⟩ rfl
  have hnext : checkedAdd db.state.version 1 = some (db.state.version + 1) :=
    checkedAdd_one (by omega)
  have hlen := hp.length_le h hrec hactivation
  have hread := ReceiptBody.fieldsCodec.fromSlice_encode (hp.fieldsCodec_valid h hrec)
  have hlength : entries.length ≤ maxReceiptTraceEntries := h.length_eq ▸ hrec.step_le
  refine ⟨⟨_, id, hauthentic⟩, _,
    { db.state with status := status, callout := none, version := db.state.version + 1 }, ?_,
    hencode, hlen, hrec.budget, ?_, ?_⟩
  · simp only [Db.assembleReceipt, Db.assembleTerminalArtifact, ReceiptBody.new, ensurePayload,
      bind_eq_ok, ensure_eq_ok, mapError_eq_ok, pure_eq_ok]
    refine ⟨(), ⟨trivial, trivial⟩, entries, h.loadAgreedTrace_eq_ok, terminal, hp.termination, _,
      ⟨(), ?_, (), db.activation.params_le, (), hlength, (), ?_, rfl⟩, ?_⟩
    · rw [hp.outcome_eq]
      exact hp.outcome_le
    · rw [hp.outcome_eq]
      exact hshape
    · rw [hp.outcome_eq]
      exact hnew
  · simp only [ReceiptArtifact.decode, ReceiptBody.encode, ensurePayload, bind_eq_ok, ensure_eq_ok,
      okOr_eq_ok]
    exact ⟨(), ensure_eq_ok.2 (hlen.trans hrec.budget), (), trivial, (), trivial, _, hread, (),
      hshape, hnew⟩
  · simp only [ExecutionState.publishReceipt, bind_eq_ok, bumpVersion_eq_ok]
    exact ⟨(), hp.validateReceiptBody_eq_ok h hrec hactivation, status, hstatus, _,
      hnext, rfl⟩

end Body

/-! ## Terminal statuses -/

section Status

variable {db : Db κ} {entries : List TraceEntry}

theorem Db.Ledger.last {front : List TraceEntry} {entry : TraceEntry}
    (h : db.Ledger (front ++ [entry])) :
    checkedAdd entry.step 1 = some db.state.agreedStep ∧ entry.postState = db.state.agreedState ∧
      (StepCommitment.forEntry κ db.state.binding.sessionId entry
        (traceLink κ db.state.binding.sessionId chainStart front)).linkHash κ =
          db.state.agreedLink := by
  have hcertified := h.certified
  have hparts : db.state.stepCursor =
      ⟨db.state.agreedStep, db.state.agreedState, db.state.agreedLink⟩ := rfl
  generalize hentries : front ++ [entry] = entries at hcertified
  generalize db.state.stepCursor = last at hcertified hparts
  cases hcertified with
  | nil => simp at hentries
  | @snoc front' cursor _ entry' hfront hopen hentry hadvance hagreed =>
    obtain ⟨rfl, hsingle⟩ := List.append_inj' hentries rfl
    obtain rfl := List.singleton_inj.1 hsingle
    obtain ⟨hstep, heq, -, -, hstate, hlink⟩ := StepCursor.advance_eq_ok.1 hadvance
    rw [← hfront.chainHash_eq]
    subst hparts
    have hnumber : entry.step = cursor.nextStep := heq
    exact ⟨hnumber ▸ hstep, hstate.symm, hlink.symm⟩

theorem publishable_certified {outcome : TerminalOutcome κ} (h : db.Ledger entries)
    (hstatus : db.state.status = .certified outcome) :
    Publishable db entries .completed outcome.borsh := by
  have hconcluded := h.concluded
  rw [hstatus] at hconcluded
  cases hconcluded with
  | running hrunning hopen =>
    rcases hrunning with hrunning | ⟨_, hrunning⟩ <;> cases hrunning
  | @terminal front entry hentries hterminal hproposal =>
    subst hentries
    have hend := ExecutionStatus.validateProposalStatus_certified hproposal
    have hle := outcome.borsh_le
    have hfinal : checkFinalEntry (front ++ [entry]).getLast? (.completed outcome.borsh) = .ok () := by
      simp [checkFinalEntry, hend]
    obtain ⟨hstep, hstate, hlink⟩ := h.last
    refine ⟨?_, ?_, rfl, hle, ?_, by simp, ?_, ?_⟩
    · rw [hstatus]
      rfl
    · rw [hstatus]
      rfl
    · rw [ReceiptTermination.length_encode_completed]
      omega
    · simp only [checkTermination, Db.receiptBody, bind_eq_ok, pure_eq_ok]
      exact ⟨_, validateReceiptTrace_eq_ok.2 ⟨.inr (by simp), h.certified, hfinal⟩, trivial⟩
    · intro artifact hbody
      refine ⟨.completed outcome artifact.receiptId, ?_⟩
      simp only [publishedStatus, hstatus, hbody, Db.receiptBody, List.getLast?_append,
        List.getLast?_singleton, Option.some_or, List.dropLast_concat, bind_eq_ok, okOr_eq_ok,
        ensure_eq_ok, pure_eq_ok]
      exact ⟨entry, rfl, (), ⟨trivial, hstep, hstate, hlink⟩, trivial⟩

theorem publishable_stopped {cause : StopCause} (h : db.Ledger entries)
    (hrec : db.state.Recoverable) (hstatus : db.state.status = .stopped cause) :
    Publishable db entries (.stopped cause) [] := by
  have hbinding := hrec.status
  have hconcluded := h.concluded
  rw [hstatus] at hbinding hconcluded
  simp only [ExecutionStatus.unpublished, ExecutionStatus.validateBinding, bind_eq_ok] at hbinding
  obtain ⟨_, hvalid, hcause⟩ := hbinding
  have hpublished : ∀ artifact : ReceiptArtifact κ,
      artifact.body = db.receiptBody (.stopped cause) [] entries →
        ∃ status, db.state.publishedStatus artifact = .ok status := by
    intro artifact hbody
    refine ⟨.stoppedPublished cause artifact.receiptId, ?_⟩
    simp [publishedStatus, hstatus, hbody, Db.receiptBody]
  have htermination : Db.receiptTermination db.state.status = .ok (.stopped cause) := by
    rw [hstatus]
    rfl
  have houtcome : ((Db.terminalOutcome db.state.status).map (·.borsh)).getD [] = [] := by
    rw [hstatus]
    rfl
  have hmax : 237 + maxTerminalReasonBytes ≤ 1 + maxTerminalOutcomeBytes := by decide
  cases cause with
  | authenticated occurrence =>
    have hshape : occurrence.validateShape = .ok () := hvalid
    obtain ⟨-, hzero, hreason⟩ := AbortOccurrence.validateShape_eq_ok.1 hshape
    have hopen : ∀ e ∈ entries, e.isTerminal = false := by
      cases hconcluded with
      | running hrunning hopen => exact hopen
      | terminal hentries hterminal hproposal =>
        have hne := (ExecutionStatus.validateProposalStatus_terminal hproposal).2 occurrence
        exact absurd rfl hne
    have hfinal : checkFinalEntry entries.getLast? .authenticated = .ok () := by
      simp only [checkFinalEntry, ensure_eq_ok]
      exact fun e he => hopen e (List.mem_of_getLast? he)
    have hcodec : ReceiptTermination.codec.valid (.stopped (.authenticated occurrence)) = true :=
      AbortOccurrence.codec_valid.2 hshape
    simp only [StopCause.validateBinding, bind_eq_ok, mapError_eq_ok, ensure_eq_ok] at hcause
    obtain ⟨_, ⟨hsession, hcoordinate, hmember⟩, valid, hverify, rfl⟩ := hcause
    refine ⟨htermination, houtcome, hcodec, by simp, ?_, by simp [hvalid], ?_, hpublished⟩
    · rw [ReceiptTermination.length_encode_authenticated]
      simp only [List.length_nil]
      omega
    · simp only [checkTermination, Db.receiptBody, validateStoppedReceipt,
        AbortOccurrence.validateForSession, hvalid, hshape, ok_bind, bind_eq_ok, ensure_eq_ok]
      exact ⟨(), ⟨(), hsession, hzero⟩, (), hmember, true, hverify, (), rfl, _,
        validateReceiptTrace_eq_ok.2 ⟨.inl rfl, h.certified, hfinal⟩, hcoordinate⟩
  | shared kind commitment reason =>
    have hshape := hvalid
    simp only [StopCause.validate, ensureReason, ensurePayload, bind_eq_ok, ensure_eq_ok] at hvalid
    obtain ⟨_, -, hreason⟩ := hvalid
    cases hconcluded with
    | running hrunning hopen =>
      rcases hrunning with hrunning | ⟨_, hrunning⟩ <;> cases hrunning
    | @terminal front entry hentries hterminal hproposal =>
      subst hentries
      obtain ⟨hcommitment, hlast⟩ := ExecutionStatus.validateProposalStatus_shared hproposal
      have hfinal : checkFinalEntry (front ++ [entry]).getLast? (.stopped kind reason) = .ok () := by
        rcases hlast with ⟨rfl, hlast⟩ | ⟨rfl, hlast⟩ <;> simp [checkFinalEntry, hlast]
      have hcodec :
          ReceiptTermination.codec.valid (.stopped (.shared kind commitment reason)) = true := by
        change (AbortKind.codec.valid kind && (StepCommitment.codec.valid commitment &&
          reasonCodec.valid reason)) = true
        have hkind : AbortKind.codec.valid kind = true := by cases kind <;> rfl
        simp only [hkind, StepCommitment.codec_valid, Codec.string_valid, Bool.true_and,
          decide_eq_true_eq]
        exact hreason
      refine ⟨htermination, houtcome, hcodec, by simp, ?_, by simp [hshape], ?_, hpublished⟩
      · rw [ReceiptTermination.length_encode_shared]
        simp only [List.length_nil]
        omega
      · simp only [checkTermination, Db.receiptBody, validateStoppedReceipt, hshape, ok_bind,
          List.getLast?_append, List.getLast?_singleton, Option.some_or, bind_eq_ok, okOr_eq_ok,
          ensure_eq_ok]
        refine ⟨entry, rfl, (), ⟨?_, ?_⟩, _,
          validateReceiptTrace_eq_ok.2 ⟨.inr (by simp), h.certified, hfinal⟩, hcause⟩
        · rw [hcommitment]
          rfl
        · rw [hcommitment]
          rfl

end Status

/-! ## Every terminal execution publishes -/

theorem Host.Sound.publish {keys : HostKeys} {h : Host κ} (hs : h.Sound keys)
    (hwork : h.db.state.status.receiptWork = .assemble) :
    ∃ artifact bytes next, h.db.assembleReceipt h.db.state = .ok artifact ∧
      artifact.encode = .ok bytes ∧
      bytes.length ≤ h.db.state.traceBytes + h.db.state.receiptOverhead ∧
      h.db.state.traceBytes + h.db.state.receiptOverhead ≤ maxReceiptBytes ∧
      ReceiptArtifact.decode bytes = .ok artifact ∧
      h.db.state.publishReceipt artifact = .ok next := by
  obtain ⟨entries, hledger⟩ := hs.ledger
  cases hstatus : h.db.state.status with
  | certified outcome =>
    exact (publishable_certified hledger hstatus).publish hledger hs.recoverable hs.activation
      hs.version
  | stopped cause =>
    exact (publishable_stopped hledger hs.recoverable hstatus).publish hledger hs.recoverable
      hs.activation hs.version
  | _ =>
    rw [hstatus] at hwork
    cases hwork

/-- In every run the byte count is the size of the certified entries, and a terminal execution
assembles a receipt that stays inside the reserve, reads back and is accepted. -/
theorem terminal_execution_publishes {keys : HostKeys} {h : Host κ} (hr : h.Reachable keys) :
    (∃ entries, h.db.loadAgreedTrace h.db.state = .ok entries ∧
      validateAgreedTrace h.db.state.binding entries = .ok h.db.state.stepCursor ∧
      h.db.state.traceBytes =
        (entries.map fun entry => (TraceEntry.codec.encode entry).length).sum) ∧
    (h.db.state.status.receiptWork = .assemble →
      ∃ artifact bytes next, h.db.assembleReceipt h.db.state = .ok artifact ∧
        artifact.encode = .ok bytes ∧
        bytes.length ≤ h.db.state.traceBytes + h.db.state.receiptOverhead ∧
        h.db.state.traceBytes + h.db.state.receiptOverhead ≤ maxReceiptBytes ∧
        ReceiptArtifact.decode bytes = .ok artifact ∧
        h.db.state.publishReceipt artifact = .ok next) := by
  have hs := hr.sound
  obtain ⟨entries, hledger⟩ := hs.ledger
  refine ⟨⟨entries, hledger.loadAgreedTrace_eq_ok, validateAgreedTrace_eq_ok.2 hledger.certified,
    ?_⟩, hs.publish⟩
  rw [← hledger.bytes, Codec.encodeAll, List.length_flatMap]

open Sample in
theorem terminal_execution_publishes_stopped :
    stoppedHost.db.state.agreedStep = 1 ∧ ∃ artifact,
      stoppedHost.db.assembleReceipt stoppedHost.db.state = .ok artifact := by
  have hall := terminal_execution_publishes (h := stoppedHost)
    ⟨_, _, created_one, rfl⟩
  have hterminal : stoppedHost.db.state.status.receiptWork = .assemble ∧
      stoppedHost.db.state.agreedStep = 1 := by decide +kernel
  obtain ⟨artifact, _, _, hassemble, -⟩ := hall.2 hterminal.1
  exact ⟨hterminal.2, artifact, hassemble⟩

end Arena0
