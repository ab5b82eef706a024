import Arena0.Committed
import Arena0.Chain

/-!
# Progress of the agreement

Seen from the agreed trace, a committed decision does one of these things: it
leaves the agreement alone, stages a proposal, adds a signature to the staged
proposal, certifies it by its last signature or by a certificate, or stops the
execution.
-/

namespace Arena0

open Borsh Fallible Actor ExecutionState

variable {κ : Primitives}

def Input.signer (me : PeerId) : Input → Option PeerId
  | .sign => some me
  | .receive source (.stepSignature ..) _ => some source
  | _ => none

def SharedProposal.under (proposal : SharedProposal κ) (certificate : StepCertificate) :
    SharedProposal κ :=
  { proposal with entry := { proposal.entry with agreement := certificate.agreement } }

structure Certifies (s t : ExecutionState κ) (proposal : SharedProposal κ)
    (certificate : StepCertificate) : Prop where
  valid : validateProposal s.binding s.stepCursor proposal.eventPosition proposal = .ok ()
  commitment : certificate.commitment = s.commitmentFor proposal
  verify : certificate.verify s.binding = .ok ()
  next : ∃ next traceBytes version, s.stepCursor.advance κ certificate.commitment = .ok next ∧
    s.checkReceiptBudget proposal.entry = .ok traceBytes ∧
    checkedAdd s.version 1 = some version ∧
    t = { s.certified proposal certificate next traceBytes with version := version }

/-- What a committed decision does to the agreement, and the input that gave rise to it. -/
inductive Progress (me : PeerId) (s : ExecutionState κ) (input : Input) (t : ExecutionState κ) :
    Change κ → Prop
  | quiet {change : Change κ} (hsigner : input.signer me = none)
      (hcursor : t.stepCursor = s.stepCursor) (hbytes : t.traceBytes = s.traceBytes)
      (hcertificate : t.lastCertificate = s.lastCertificate) (hproposal : t.proposal = s.proposal)
      (hstatus : t.status.unpublished = s.status.unpublished ∨
        s.status = .activating ∧ t.status = .active)
      (hchange : ∀ certified, change ≠ .stepSignature certified) : Progress me s input t change
  | staged {event : Event} {result : DispatchResult κ} {timerId : Option TimerId}
      {proposal : SharedProposal κ} {position version : UInt64}
      (hsigner : input.signer me = none) (hnone : s.proposal = none)
      (hactive : s.status = .active) (hstaged : StagedBy s event result proposal)
      (ht : t = { s with
        eventPosition := position, proposal := some proposal, version := version }) :
      Progress me s input t (.dispatch event result.effects timerId)
  | signed {proposal signed : SharedProposal κ} {x : ParticipantStepSignature} {version : UInt64}
      (hsigner : input.signer me = some x.participant) (hproposal : s.proposal = some proposal)
      (hadd : proposal.addSignature s.binding (s.commitmentFor proposal) x = .ok signed)
      (ht : t = { s with proposal := some signed, version := version }) :
      Progress me s input t (.stepSignature none)
  | completed {proposal signed : SharedProposal κ} {x : ParticipantStepSignature}
      {certificate : StepCertificate} (hsigner : input.signer me = some x.participant)
      (hproposal : s.proposal = some proposal)
      (hadd : proposal.addSignature s.binding (s.commitmentFor proposal) x = .ok signed)
      (hcomplete : signed.signatures.length = s.binding.activation.tickets.length)
      (hcertifies : Certifies s t signed certificate) :
      Progress me s input t (.stepSignature (some (signed.under certificate)))
  | certified {proposal : SharedProposal κ} {source : PeerId} {certificate : StepCertificate}
      {reply : GuestReply} (hinput : input = .receive source (.stepCertificate certificate) reply)
      (hproposal : s.proposal = some proposal) (hcertifies : Certifies s t proposal certificate) :
      Progress me s input t (.stepSignature (some (proposal.under certificate)))
  | stopped {kind : AbortKind} {code : UInt32} {reason : String} {occurrence : AbortOccurrence}
      (hinput : input = .stop kind code reason) (hsender : occurrence.sender = me)
      (hstop : s.stop occurrence = .ok t) : Progress me s input t .state
  | aborted {source : PeerId} {occurrence : AbortOccurrence} {reply : GuestReply}
      (hinput : input = .receive source (.abort occurrence) reply)
      (hstop : s.stop occurrence = .ok t) : Progress me s input t .state

variable {me : PeerId} {input : Input}

variable {s t : ExecutionState κ}

private theorem Progress.of_applyDispatch {event : Event} {result : DispatchResult κ}
    {pendingId : Option UInt64} {timerId : Option TimerId} {frame : Option ExecFrame}
    (hsigner : input.signer me = none)
    (h : s.applyDispatch event result pendingId = .ok (t, frame)) :
    Progress me s input t (.dispatch event result.effects timerId) := by
  obtain ⟨-, ⟨-, -, lifecycle, hlocal⟩ | ⟨-, -, indexed, lifecycle, hindexed, hagreed⟩⟩ :=
    applyDispatch_eq_ok h
  · obtain ⟨-, hactive, -, _, _, _, _, -, -, -, -, -, rfl⟩ := applyLocal_eq_ok hlocal
    refine .quiet hsigner rfl rfl rfl rfl (.inl ?_) (by simp)
    rw [hactive]
  · obtain ⟨hnone, hactive, proposal, position, version, hstaged, -, -, -, ht⟩ :=
      applyAgreed_eq_ok hindexed hagreed
    exact .staged hsigner hnone hactive hstaged ht

theorem Certifies.of_certifyStep {proposal committed : SharedProposal κ}
    {certificate : StepCertificate}
    (h : { s with proposal := some proposal }.certifyStep certificate = .ok (t, committed)) :
    Certifies s t proposal certificate ∧ committed = proposal.under certificate := by
  obtain ⟨p, next, traceBytes, version, hp, hvalid, hcommitment, hverify, hadvance, hbudget,
    hversion, rfl, ht⟩ := certifyStep_eq_ok h
  cases hp
  exact ⟨⟨hvalid, hcommitment, hverify, next, traceBytes, version, hadvance, hbudget, hversion, ht⟩,
    rfl⟩

theorem Certifies.exists_of_certifyStep {certificate : StepCertificate}
    {committed : SharedProposal κ} (h : s.certifyStep certificate = .ok (t, committed)) :
    ∃ proposal, s.proposal = some proposal ∧ Certifies s t proposal certificate ∧
      committed = proposal.under certificate := by
  obtain ⟨proposal, _, _, _, hproposal, -⟩ := certifyStep_eq_ok h
  have hself : { s with proposal := some proposal } = s := by rw [← hproposal]
  exact ⟨proposal, hproposal, Certifies.of_certifyStep (hself.symm ▸ h)⟩

private theorem Progress.of_addStepSignature {x : ParticipantStepSignature}
    {committed : Option (SharedProposal κ)} (hsigner : input.signer me = some x.participant)
    (h : s.addStepSignature x = .ok (t, committed)) :
    Progress me s input t (.stepSignature committed) := by
  obtain ⟨proposal, signed, hproposal, hadd, ⟨-, rfl, version, -, ht⟩ |
    ⟨hcomplete, certificate, done, rfl, -, hcertify⟩⟩ := addStepSignature_eq_ok h
  · exact .signed hsigner hproposal hadd ht
  · obtain ⟨hcertifies, rfl⟩ := Certifies.of_certifyStep hcertify
    exact .completed hsigner hproposal hadd hcomplete hcertifies

private theorem Progress.of_recordDirect {source : PeerId} {seq : UInt64}
    (hsigner : input.signer me = none)
    (h : s.recordDirect source seq = .ok t) : Progress me s input t .state := by
  obtain ⟨-, -, -, v, -, rfl⟩ := recordDirect_eq_ok h
  exact .quiet hsigner rfl rfl rfl rfl (.inl rfl) (by simp)

private theorem Progress.of_confirmEnd {peer : PeerId} (hsigner : input.signer me = none)
    (h : s.confirmEnd peer = .ok (some t)) : Progress me s input t .state := by
  obtain ⟨_, v, phase, -, -, -, rfl, -⟩ := confirmEnd_eq_ok h
  exact .quiet hsigner rfl rfl rfl rfl (.inl rfl) (by simp)

theorem signer_of_endConclusionMatches {me source : PeerId} {frame : ExecFrame} {reply : GuestReply}
    (h : s.endConclusionMatches frame = .same) :
    (Input.receive source frame reply).signer me = none := by
  cases frame with
  | stepSignature commitment sig =>
    unfold endConclusionMatches at h
    split at h
    all_goals first | cases h | contradiction
  | _ => rfl

variable {keys : HostKeys} {db : Db κ} {s t : ExecutionState κ} {change : Change κ}

/-- Every committed decision is one of these kinds. -/
theorem Committed.progress (h : Committed keys db s input t change) :
    Progress keys.peerId s input t change := by
  cases h with
  | activate h =>
    obtain ⟨hstatus, -, v, -, rfl⟩ := activate_eq_ok h
    exact .quiet rfl rfl rfl rfl rfl (.inr ⟨hstatus, rfl⟩) (by simp)
  | dispatch hinput h =>
    have hsigner : input.signer keys.peerId = none := by
      cases input <;> first | rfl | cases hinput
    exact .of_applyDispatch hsigner h
  | message h hstaged => exact .of_applyDispatch rfl h
  | @direct _ next source seq _ _ _ event result _ hopen hlocal h hrecord =>
    obtain ⟨-, ⟨-, -, lifecycle, hlocal⟩ | ⟨hagreed, -⟩⟩ := applyDispatch_eq_ok h
    · obtain ⟨-, hactive, -, _, _, _, _, -, -, -, -, -, rfl⟩ := applyLocal_eq_ok hlocal
      obtain ⟨-, -, -, v, -, rfl⟩ := recordDirect_eq_ok hrecord
      refine .quiet rfl rfl rfl rfl rfl (.inl ?_) (by simp)
      rw [hactive]
    · rw [hlocal] at hagreed
      cases hagreed
  | discard hopen hrecord => exact .of_recordDirect rfl hrecord
  | drop h =>
    obtain ⟨-, v, -, rfl⟩ := dropOutgoingHead_eq_ok h
    exact .quiet rfl rfl rfl rfl rfl (.inl rfl) (by simp)
  | sign hproposal h => exact .of_addStepSignature rfl h
  | signature hproposal h => exact .of_addStepSignature rfl h
  | @certificate _ _ certificate _ committed h =>
    obtain ⟨p, hp, hcertifies, rfl⟩ := Certifies.exists_of_certifyStep h
    exact .certified rfl hp hcertifies
  | stop hsender h => exact .stopped rfl hsender h
  | abort h => exact .aborted rfl h
  | publish hassemble h =>
    obtain ⟨-, status, v, hstatus, -, rfl⟩ := publishReceipt_eq_ok h
    refine .quiet rfl rfl rfl rfl rfl (.inl ?_) (by simp)
    rcases publishedStatus_eq_ok hstatus with ⟨outcome, hs, rfl⟩ | ⟨cause, hs, rfl⟩
    · rw [hs]
      rfl
    · rw [hs]
      rfl
  | ack houtcome h =>
    obtain ⟨-, -, v, -, rfl⟩ := ackDirect_eq_ok h
    exact .quiet rfl rfl rfl rfl rfl (.inl rfl) (by simp)
  | evidence hauth hterminal hmatch h =>
    exact .of_confirmEnd (signer_of_endConclusionMatches hmatch) h
  | confirmed hfinal h => exact .of_confirmEnd rfl h
  | expire h =>
    obtain ⟨_, v, -, -, rfl⟩ := expireEnd_eq_ok h
    exact .quiet rfl rfl rfl rfl rfl (.inl rfl) (by simp)

/-! ## Calls on the aggregate -/

def Calls (s t : ExecutionState κ) : Prop := ∃ op : Op κ, op.apply s = .ok t

/-- A committed decision is a sequence of calls. -/
theorem Committed.calls (h : Committed keys db s input t change) : Relation.TransGen Calls s t := by
  have hdispatch : ∀ {event result pendingId frame} {u : ExecutionState κ},
      s.applyDispatch event result pendingId = .ok (u, frame) → Calls s u := by
    intro event result pendingId frame u hu
    exact ⟨.applyDispatch event result pendingId, map_eq_ok.2 ⟨_, hu, rfl⟩⟩
  have hsign : ∀ {x certified}, s.addStepSignature x = .ok (t, certified) → Calls s t := by
    intro x certified hu
    exact ⟨.addStepSignature x, map_eq_ok.2 ⟨_, hu, rfl⟩⟩
  have hconfirm : ∀ {peer}, s.confirmEnd peer = .ok (some t) → Calls s t := by
    intro peer hu
    exact ⟨.confirmEnd peer, map_eq_ok.2 ⟨_, hu, rfl⟩⟩
  cases h with
  | activate h => exact .single ⟨.activate, h⟩
  | dispatch hinput h => exact .single (hdispatch h)
  | message h hstaged => exact .single (hdispatch h)
  | direct hopen hlocal h hrecord => exact .tail (.single (hdispatch h)) ⟨.recordDirect _ _, hrecord⟩
  | discard hopen hrecord => exact .single ⟨.recordDirect _ _, hrecord⟩
  | drop h => exact .single ⟨.dropOutgoingHead, h⟩
  | sign hproposal h => exact .single (hsign h)
  | signature hproposal h => exact .single (hsign h)
  | certificate h => exact .single ⟨.certifyStep _, map_eq_ok.2 ⟨_, h, rfl⟩⟩
  | stop hsender h => exact .single ⟨.stop _, h⟩
  | abort h => exact .single ⟨.stop _, h⟩
  | publish hassemble h => exact .single ⟨.publishReceipt _, h⟩
  | ack houtcome h => exact .single ⟨.ackDirect _ _, map_eq_ok.2 ⟨_, h, rfl⟩⟩
  | evidence hauth hterminal hmatch h => exact .single (hconfirm h)
  | confirmed hfinal h => exact .single (hconfirm h)
  | expire h => exact .single ⟨.expireEnd, h⟩

/-- What no call changes, and the version, which only grows. -/
structure SameExecution (s t : ExecutionState κ) : Prop where
  binding : t.binding = s.binding
  producer : t.producer = s.producer
  executionId : t.executionId = s.executionId
  version : s.version.toNat ≤ t.version.toNat

theorem SameExecution.refl (s : ExecutionState κ) : SameExecution s s := ⟨rfl, rfl, rfl, le_rfl⟩

theorem SameExecution.trans {u : ExecutionState κ} (h : SameExecution s t)
    (h' : SameExecution t u) : SameExecution s u :=
  ⟨h'.binding.trans h.binding, h'.producer.trans h.producer, h'.executionId.trans h.executionId,
    h.version.trans h'.version⟩

theorem Calls.sameExecution (h : Calls s t) : SameExecution s t := by
  have hversion : ∀ {v w : UInt64}, checkedAdd v 1 = some w → v.toNat ≤ w.toNat := by
    intro v w hw
    rw [checkedAdd_eq_some hw]
    omega
  have hcertify : ∀ {s t : ExecutionState κ} {certificate committed},
      s.certifyStep certificate = .ok (t, committed) → SameExecution s t := by
    intro s t certificate committed h
    obtain ⟨p, next, bytes, v, -, -, -, -, -, -, hv, -, rfl⟩ := certifyStep_eq_ok h
    exact ⟨rfl, rfl, rfl, hversion hv⟩
  obtain ⟨op, ht⟩ := h
  cases op with
  | activate =>
    obtain ⟨-, -, v, hv, rfl⟩ := activate_eq_ok ht
    exact ⟨rfl, rfl, rfl, hversion hv⟩
  | applyDispatch event result pendingId =>
    obtain ⟨⟨u, frame⟩, hu, rfl⟩ := map_eq_ok.1 ht
    obtain ⟨-, ⟨-, -, lifecycle, hlocal⟩ | ⟨-, -, indexed, lifecycle, hindexed, hagreed⟩⟩ :=
      applyDispatch_eq_ok hu
    · obtain ⟨-, -, -, _, _, _, v, -, -, -, -, hv, rfl⟩ := applyLocal_eq_ok hlocal
      exact ⟨rfl, rfl, rfl, hversion hv⟩
    · obtain ⟨-, -, _, _, v, -, -, -, hv, rfl⟩ := applyAgreed_eq_ok hindexed hagreed
      exact ⟨rfl, rfl, rfl, hversion hv⟩
  | addStepSignature signature =>
    obtain ⟨⟨u, committed⟩, hu, rfl⟩ := map_eq_ok.1 ht
    obtain ⟨p, signed, -, -, ⟨-, -, v, hv, rfl⟩ | ⟨-, certificate, done, -, -, hcert⟩⟩ :=
      addStepSignature_eq_ok hu
    · exact ⟨rfl, rfl, rfl, hversion hv⟩
    · obtain ⟨hb, hp, he, hv⟩ := hcertify hcert
      exact ⟨hb, hp, he, hv⟩
  | certifyStep certificate =>
    obtain ⟨⟨u, committed⟩, hu, rfl⟩ := map_eq_ok.1 ht
    exact hcertify hu
  | stop occurrence =>
    obtain ⟨-, -, -, -, -, -, v, hv, rfl⟩ := stop_eq_ok ht
    exact ⟨rfl, rfl, rfl, hversion hv⟩
  | publishReceipt artifact =>
    obtain ⟨-, status, v, -, hv, rfl⟩ := publishReceipt_eq_ok ht
    exact ⟨rfl, rfl, rfl, hversion hv⟩
  | dropOutgoingHead | recordDirect _ _ | ackDirect _ _ | confirmEnd _ | expireEnd =>
    have hrests := Op.rests rfl ht
    exact ⟨hrests.binding, hrests.producer, hrests.executionId,
      hrests.version.elim (fun heq => heq ▸ le_rfl) hversion⟩

theorem Committed.sameExecution (h : Committed keys db s input t change) : SameExecution s t := by
  have hcalls := h.calls
  clear h
  induction hcalls with
  | single hcall => exact hcall.sameExecution
  | tail _ hcall ih => exact ih.trans hcall.sameExecution

theorem Committed.recoverable (h : Committed keys db s input t change) (hs : s.Recoverable) :
    t.Recoverable := by
  have hcalls := h.calls
  clear h
  induction hcalls with
  | single hcall =>
    obtain ⟨op, hop⟩ := hcall
    exact op.apply_recoverable hs hop
  | tail _ hcall ih =>
    obtain ⟨op, hop⟩ := hcall
    exact op.apply_recoverable ih hop

end Arena0
