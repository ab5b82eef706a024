import Arena0.BorshBounds
import Arena0.Chain
import Arena0.Encoding
import Arena0.Recovery
import Arena0.Reserve

/-!
# The durable aggregate

Reading a persisted aggregate back, and a bound on its encoding.  The bound adds
up one bound for each part: two payloads and their staged copies, the queues,
the lanes, the retained effects, the activation and the terminal evidence.
-/

namespace Arena0

open Borsh Fallible

variable {κ : Primitives} {status : ExecutionStatus κ}

namespace ExecutionState

/-- The aggregate of persisted fields and the reserve derived from them. -/
def restore (receiptOverhead : ℕ) : Fields κ → ExecutionState κ
  | (executionId, binding, producer, status, version, eventPosition, agreedStep, traceBytes,
      agreedState, agreedLink, lastCertificate, endPhase, direct, outgoing, sharedState,
      localState, proposal, callout) =>
    { executionId, binding, producer, status, version, eventPosition, agreedStep, traceBytes,
      receiptOverhead, agreedState, agreedLink, lastCertificate, endPhase, direct, outgoing,
      sharedState, localState, proposal, callout }

def decode (bytes : Bytes) : Except ProtocolError (ExecutionState κ) := do
  ensureEncoded "execution state" bytes.length maxExecutionStateBytes
  let fields ← okOr (fieldsCodec.fromSlice bytes) (.deserialization "invalid execution state")
  let receiptOverhead ← ReceiptArtifact.reservedOverhead fields.2.1
  let state := restore receiptOverhead fields
  state.validateRecovered
  return state

@[simp] theorem restore_fields (s : ExecutionState κ) : restore s.receiptOverhead s.fields = s :=
  rfl

theorem validateRecovered_of_decode {bytes : Bytes} {s : ExecutionState κ}
    (h : decode bytes = .ok s) : s.validateRecovered = .ok () := by
  simp only [decode, bind_eq_ok, pure_eq_ok] at h
  obtain ⟨_, -, fields, -, overhead, -, _, hvalid, rfl⟩ := h
  exact hvalid

end ExecutionState

/-! ## Parts of the activation -/

theorem Id.within {k : IdKind} (a : Id k) : Id.codec.Within 32 a :=
  ⟨rfl, a.length_codec_encode.le⟩

private theorem TicketAction.within (a : TicketAction) : codec.Within 157 a := by
  cases a with
  | active key binding issued lifetime =>
    have h := (Codec.within_fixed 96 key).pair <| (Codec.within_fixed 48 binding).pair <|
      (Codec.within_u64 issued).pair (Codec.within_u32 lifetime)
    exact Codec.Within.equiv (Codec.within_enum h.valid h.length_le)
  | withdrawn => exact ⟨rfl, by decide⟩

theorem Ticket.within (t : Ticket) : codec.Within 327 t := by
  have hdata : TicketData.codec.Within 263 t.data := Codec.Within.equiv <|
    (Codec.within_fixed 24 t.data.domain).pair <| (Codec.within_u16 t.data.version).pair <|
    (Id.within t.data.negotiationId).pair <| (Codec.within_u64 t.data.offerSeq).pair <|
    (Id.within t.data.signer).pair <| (Codec.within_u64 t.data.revision).pair t.data.action.within
  exact Codec.Within.equiv (hdata.pair (Codec.within_fixed 64 t.signature))

private theorem Offer.within {o : Offer κ} (h : o.validate = .ok ()) :
    (codec (κ := κ)).Within maxNegotiationFactBytes o := by
  have hvalid := h
  simp only [validate, OfferData.validate, checkFactSize, bind_eq_ok, ensure_eq_ok] at h
  obtain ⟨_, -, _, ⟨-, htickets⟩, _, -, hsize⟩ := h
  have hcount := o.data.targetSize.toNat_lt
  have hhashes := ticketHashesCodec_valid (l := o.tickets) (by omega)
  refine ⟨?_, hsize⟩
  simp only [codec, Codec.guarded_valid, Codec.equiv_valid, Equiv.coe_fn_symm_mk,
    Codec.pair_valid, o.data.codec_valid, hhashes, hvalid, Bool.and_self]
  rfl

def maxActivationBytes : ℕ := 1 + (1 + (maxNegotiationFactBytes + (4 + maxParticipants * 327)) + 48)

theorem PreparedActivation.within (p : PreparedActivation κ) : (codec (κ := κ)).Within
    (1 + (maxNegotiationFactBytes + (4 + maxParticipants * 327))) p := by
  have hset := p.ticketSet
  have htickets : (Codec.vec _ Ticket.codec u32Max_lt).Within
      (4 + maxParticipants * 327) p.tickets :=
    Codec.within_vec _ hset.bounds.2 (by decide) fun t _ => t.within
  exact Codec.Within.partialInv <| (Codec.within_u8 encodingVersion).pair <|
    (Offer.within hset.offer_valid).pair htickets

theorem Activation.within (a : Activation κ) : (codec (κ := κ)).Within maxActivationBytes a :=
  Codec.Within.partialInv <| (Codec.within_u8 encodingVersion).pair <|
    a.prepared.within.pair (Codec.within_fixed 48 a.aggregate)

/-! ## Terminal evidence -/

private theorem StepCommitment.within (c : StepCommitment) : codec.Within 192 c :=
  ⟨c.codec_valid, c.length_encode.le⟩

private theorem AbortKind.within (k : AbortKind) : codec.Within 1 k := by
  cases k <;> exact ⟨rfl, le_refl 1⟩

private theorem AbortOccurrence.within {o : AbortOccurrence} (h : o.validateShape = .ok ()) :
    codec.Within (235 + maxTerminalReasonBytes) o := by
  have hreason := (validateShape_eq_ok.1 h).2.2
  have hcursor : StepCursor.codec.Within 72 o.coordinate := Codec.Within.equiv <|
    (Codec.within_u64 o.coordinate.nextStep).pair <| (Id.within o.coordinate.stateHash).pair
      (Codec.within_fixed 32 o.coordinate.chainHash)
  have hfields := (Codec.within_fixed 24 o.domain).pair <| (Codec.within_u16 o.version).pair <|
    (Id.within o.sessionId).pair <| (Id.within o.sender).pair <| o.kind.within.pair <|
    (Codec.within_u32 o.code).pair <|
    (Codec.within_string (by decide) hreason (le_refl _)).pair <|
    hcursor.pair (Codec.within_fixed 64 o.signature)
  have hsum : (codec.encode o).length ≤ _ := hfields.length_le
  exact ⟨codec_valid.2 h, hsum.trans (by decide)⟩

private theorem StopCause.within {cause : StopCause} (h : cause.validate = .ok ()) :
    codec.Within (236 + maxTerminalReasonBytes) cause := by
  cases cause with
  | authenticated o =>
    have ho := AbortOccurrence.within h
    exact (Codec.Within.equiv (Codec.within_enum ho.valid ho.length_le)).mono (by decide)
  | shared kind commitment reason =>
    simp only [validate, ensureReason, ensurePayload, bind_eq_ok, ensure_eq_ok] at h
    obtain ⟨_, -, hreason⟩ := h
    have hfields := kind.within.pair <| commitment.within.pair <|
      Codec.within_string (by decide) hreason (le_refl maxTerminalReasonBytes)
    exact (Codec.Within.equiv (Codec.within_enum hfields.valid hfields.length_le)).mono (by decide)

private theorem TerminalOutcome.within (o : TerminalOutcome κ) :
    (codec (κ := κ)).Within (8 + 2 * maxTerminalOutcomeBytes) o := by
  have h := (Codec.within_byteVec (by decide) o.borsh_le (le_refl _)).pair <|
    Codec.within_byteVec (by decide) o.json_le (le_refl _)
  refine ⟨h.valid, h.length_le.trans ?_⟩
  decide

def maxStatusBytes : ℕ := 41 + 2 * maxTerminalOutcomeBytes

private theorem ExecutionStatus.within
    (h : ∀ cause, status.terminalCause = some cause → cause.validate = .ok ()) :
    (codec (κ := κ)).Within maxStatusBytes status := by
  cases status with
  | activating => exact ⟨rfl, show 1 ≤ maxStatusBytes by decide⟩
  | active => exact ⟨rfl, show 1 ≤ maxStatusBytes by decide⟩
  | certified outcome =>
    exact (Codec.Within.equiv
      (Codec.within_enum outcome.within.valid outcome.within.length_le)).mono (by decide)
  | completed outcome receiptId =>
    have hpair := outcome.within.pair (Id.within receiptId)
    exact (Codec.Within.equiv (Codec.within_enum hpair.valid hpair.length_le)).mono (by decide)
  | stopped cause =>
    have hcause := StopCause.within (h cause rfl)
    exact (Codec.Within.equiv (Codec.within_enum hcause.valid hcause.length_le)).mono (by decide)
  | stoppedPublished cause receiptId =>
    have hpair := (StopCause.within (h cause rfl)).pair (Id.within receiptId)
    exact (Codec.Within.equiv (Codec.within_enum hpair.valid hpair.length_le)).mono (by decide)

variable {binding : ExecutionBinding κ} {event : Event}

theorem ExecutionStatus.validate_cause {agreed : StepCursor}
    (h : status.unpublished.validateBinding binding agreed = .ok ()) {cause : StopCause}
    (hcause : status.terminalCause = some cause) : cause.validate = .ok () := by
  rw [unpublished_of_terminalCause hcause] at h
  simp only [validateBinding, bind_eq_ok] at h
  obtain ⟨_, hvalid, -⟩ := h
  exact hvalid

/-! ## The agreed step and its certificate -/

theorem TraceEntry.within {e : TraceEntry} (h : validateTraceEntry e = .ok ()) :
    codec.Within maxTraceEntryBytes e := by
  obtain ⟨hversion, hfits, hlen⟩ := validateTraceEntry_eq_ok.1 h
  exact ⟨codec_valid hversion hfits, hlen⟩

private theorem StepCertificate.within {certificate : StepCertificate}
    (h : certificate.verify binding = .ok ()) : codec.Within 252 certificate := by
  simp only [verify, bind_eq_ok, ExecutionBinding.participantBlsKeys_eq_ok,
    Except.ok.injEq] at h
  obtain ⟨_, -, keys, rfl, hagreed⟩ := h
  have hlength := length_signers_of_verify hagreed
  have hbytes := SignerSet.byteLength_le binding.length_le
  simp only [List.length_map, ExecutionBinding.length_sortedKeys] at hlength
  have hbitmap : certificate.agreement.signers.bytes.length ≤ 8 := by
    rw [hlength]
    exact hbytes
  have hsigners : SignerSet.codec.Within 12 certificate.agreement.signers :=
    Codec.Within.equiv (Codec.within_byteVec _ hbitmap (by decide))
  have hagreement : AggregateAttestation.codec.Within 60 certificate.agreement :=
    Codec.Within.equiv ((Codec.within_fixed 48 certificate.agreement.aggregate).pair hsigners)
  exact Codec.Within.equiv (certificate.commitment.within.pair hagreement)

/-! ## Queues, lanes and callouts -/

private theorem OpenCallout.within {callout : OpenCallout}
    (h : callout.context.length ≤ maxCalloutContextBytes) :
    codec.Within (16 + maxCalloutContextBytes) callout := by
  have hfields := (Codec.within_u64 callout.id).pair <| (Codec.within_u32 callout.calloutIndex).pair
    (Codec.within_byteVec (by decide) h (le_refl _))
  exact ⟨hfields.valid, hfields.length_le.trans (by decide)⟩

def maxOutgoingBytes : ℕ := 4 + maxOutgoingMessages * (4 + maxEffectPayloadBytes)

theorem outgoing_within {outgoing : List Bytes} (h : validateOutgoing outgoing = .ok ()) :
    outgoingCodec.Within maxOutgoingBytes outgoing := by
  obtain ⟨hlen, hmessages⟩ := validateOutgoing_eq_ok.1 h
  exact Codec.within_vec _ hlen (by decide) fun m hm =>
    Codec.within_byteVec _ (hmessages m hm) (by decide)

private theorem DirectEntry.within {peer : PeerId} {entry : DirectEntry}
    (h : checkEffectBudget [.sendDirect peer entry.msg entry.range] = .ok ()) :
    codec.Within (61 + maxDirectControlBytes) entry := by
  obtain ⟨-, heffect, -⟩ := checkEffectBudget_eq_ok.1 h
  have hmsg : entry.msg.length ≤ maxDirectControlBytes := by
    have hpayload := (heffect _ (List.mem_singleton_self _)).1
    simp only [Effect.validatePayload, ensurePayload, bind_eq_ok, ensure_eq_ok] at hpayload
    exact hpayload.choose_spec.1
  have hrange : RangeAttachment.codec.option.Within 49 entry.range :=
    Codec.within_option fun r _ => Codec.Within.equiv <|
      (Id.within r.hash).pair <| (Codec.within_u64 r.start).pair (Codec.within_u64 r.stop)
  have hfields := (Codec.within_u64 entry.seq).pair <|
    (Codec.within_byteVec (by decide) hmsg (le_refl _)).pair hrange
  exact ⟨hfields.valid, hfields.length_le.trans (by decide)⟩

def maxLaneBytes : ℕ := 20 + maxDirectQueue * (61 + maxDirectControlBytes)

private theorem DirectLane.within {producer peer : PeerId} {lane : DirectLane}
    (h : ExecutionState.LaneRecoverable binding producer peer lane) :
    codec.Within maxLaneBytes lane := by
  have hqueue := Codec.within_vec (by decide) h.length_le (le_refl _) fun entry he =>
    DirectEntry.within (h.budget entry he)
  have hfields := (Codec.within_u64 lane.lastQueued).pair <|
    hqueue.pair (Codec.within_u64 lane.lastApplied)
  exact ⟨hfields.valid, hfields.length_le.trans (by decide)⟩

theorem peerSet_within {peers : Finset PeerId}
    (h : ∀ peer ∈ peers, binding.isParticipant peer = true) :
    peerSetCodec.Within (4 + maxParticipants * 32) peers := by
  have hsub : peers.sort (· ≤ ·) ⊆ binding.participants := by
    intro peer hpeer
    exact (binding.isParticipant_iff peer).1 (h peer ((Finset.mem_sort _).1 hpeer))
  have hlen := (List.subperm_of_subset (peers.sort_nodup (· ≤ ·)) hsub).length_le
  rw [binding.length_participants] at hlen
  exact Codec.Within.partialInv <| Codec.within_vec _ (hlen.trans binding.length_le) (by decide)
    fun peer _ => Id.within peer

private theorem EndPhase.within {s : ExecutionState κ} (h : s.validateEnd = .ok ()) :
    codec.Within (5 + maxParticipants * 32) s.endPhase := by
  unfold ExecutionState.validateEnd at h
  cases hphase : s.endPhase with
  | «open» => exact ⟨rfl, show 1 ≤ 5 + maxParticipants * 32 by decide⟩
  | ending unconfirmed =>
    simp only [hphase, bind_eq_ok, ensure_eq_ok] at h
    obtain ⟨_, -, _, -, hpeers⟩ := h
    have hset := peerSet_within fun peer hp => (hpeers peer hp).2
    exact Codec.Within.equiv (Codec.within_enum hset.valid hset.length_le)
  | ended unconfirmed =>
    simp only [hphase, bind_eq_ok, ensure_eq_ok] at h
    obtain ⟨_, -, hpeers⟩ := h
    have hset := peerSet_within fun peer hp => (hpeers peer hp).2
    exact Codec.Within.equiv (Codec.within_enum hset.valid hset.length_le)

private theorem BoundedBytes.within {max : ℕ} (hmax) (b : BoundedBytes max) :
    (codec max hmax).Within (4 + max) b :=
  Codec.Within.partialInv (Codec.within_byteVec hmax b.bound (le_refl max))

/-! ## Proposals -/

def maxRetainedBytes : ℕ := 4 + (maxEffects * 4 + maxEffectBytes)

theorem Effect.codec_valid (e : Effect) : codec.valid e = codec.fits e := by
  rcases e with _ | _ | _ | _ | _ | ⟨_, _, _ | _⟩ <;> rfl

theorem effects_within {effects : List (UInt32 × Effect)} (h : validateEffects effects = .ok ()) :
    (Codec.vec _ (Codec.u32.pair Effect.codec) u32Max_lt).Within maxRetainedBytes
      effects := by
  simp only [validateEffects, bind_eq_ok, ensure_eq_ok] at h
  obtain ⟨_, -, _, -, hbudget⟩ := h
  obtain ⟨hlen, heffects, hsum⟩ := checkEffectBudget_eq_ok.1 hbudget
  rw [List.length_map] at hlen
  have hbound : maxEffects ≤ 256 ^ 4 - 1 := by decide
  refine Codec.within_vec_sum _ (hlen.trans hbound) ?_ ?_
  · intro p hp
    have hfits := (heffects p.2 (List.mem_map_of_mem hp)).2
    simp only [Codec.pair_valid, Effect.codec_valid, hfits, Bool.and_true]
    rfl
  · have hsplit : (effects.map fun p => ((Codec.u32.pair Effect.codec).encode p).length).sum =
        effects.length * 4 + encodedLength (effects.map (·.2)) := by
      simp only [Codec.pair_encode, List.length_append, Codec.length_u32_encode, encodedLength,
        List.map_map, Function.comp_def, List.sum_map_add, List.map_const', List.sum_replicate,
        smul_eq_mul]
    rw [hsplit]
    omega

private theorem ParticipantStepSignature.within (x : ParticipantStepSignature) :
    codec.Within 88 x :=
  Codec.Within.equiv <| (Id.within x.participant).pair <| (Codec.within_u64 x.signature.step).pair
    (Codec.within_fixed 48 x.signature.sig)

namespace ExecutionState

def CalloutBounded (callout : Option OpenCallout) : Prop :=
  ∀ c, callout = some c → c.context.length ≤ maxCalloutContextBytes

structure CalloutsBounded (s : ExecutionState κ) : Prop where
  current : CalloutBounded s.callout
  staged : ∀ proposal, s.proposal = some proposal → CalloutBounded proposal.callout

theorem calloutBounded_none : CalloutBounded none := fun _ hc => nomatch hc

private theorem CalloutBounded.within {callout : Option OpenCallout} (h : CalloutBounded callout) :
    OpenCallout.codec.option.Within (17 + maxCalloutContextBytes) callout :=
  (Codec.within_option fun c hc => OpenCallout.within (h c hc)).mono (by decide)

def maxProposalBytes : ℕ :=
  maxTraceEntryBytes + (4 + maxSharedStateBytes) + (4 + maxLocalStateBytes) + maxOutgoingBytes +
    maxRetainedBytes + 8 + maxStatusBytes + (17 + maxCalloutContextBytes) +
    (4 + maxParticipants * 88)

variable {s : ExecutionState κ}

private theorem ProposalRecoverable.within {proposal : SharedProposal κ}
    (h : s.ProposalRecoverable proposal) (hcallout : CalloutBounded proposal.callout) :
    (SharedProposal.codec (κ := κ)).Within maxProposalBytes proposal := by
  obtain ⟨hstaged, hsigned⟩ := validateProposal_eq_ok.1 h.valid
  have hentry : TraceEntry.codec.Within maxTraceEntryBytes proposal.entry := by
    have hvalid := hstaged.entry_valid
    simp only [validateSharedEntry, bind_eq_ok] at hvalid
    exact TraceEntry.within hvalid.choose_spec.1
  have hstatus : (ExecutionStatus.codec (κ := κ)).Within maxStatusBytes proposal.status := by
    obtain ⟨next, -, hbinding⟩ := hstaged.advances
    exact ExecutionStatus.within fun cause hcause =>
      ExecutionStatus.validate_cause (ExecutionStatus.validateBinding_eq_ok.1 hbinding).1 hcause
  have hsignatures := Codec.within_vec (by decide)
    (hsigned.length_le.trans s.binding.length_le) (by decide : maxParticipants ≤ 256 ^ 4 - 1)
    fun x _ => ParticipantStepSignature.within x
  have hfields := hentry.pair <| (BoundedBytes.within (by decide) proposal.sharedState).pair <|
    (BoundedBytes.within (by decide) proposal.localState).pair <|
    (outgoing_within h.outgoing).pair <| (effects_within h.effects).pair <|
    (Codec.within_u64 proposal.eventPosition).pair <| hstatus.pair <|
    hcallout.within.pair hsignatures
  exact ⟨hfields.valid, hfields.length_le.trans (by decide)⟩

/-! ## The aggregate -/

private theorem Recoverable.within (h : s.Recoverable) (hcallouts : s.CalloutsBounded) :
    (fieldsCodec (κ := κ)).Within maxExecutionStateBytes s.fields := by
  have hbinding : (ExecutionBinding.codec (κ := κ)).Within maxActivationBytes s.binding :=
    Codec.Within.equiv s.binding.activation.within
  have hstatus : (ExecutionStatus.codec (κ := κ)).Within maxStatusBytes s.status :=
    ExecutionStatus.within fun cause hcause => ExecutionStatus.validate_cause h.status hcause
  have htrace : s.traceBytes < 256 ^ 8 := by
    have hbudget := h.budget
    have hmax : maxReceiptBytes < 256 ^ 8 := by decide
    omega
  have hcertificate : StepCertificate.codec.option.Within 253 s.lastCertificate := by
    refine Codec.within_option fun certificate hc => ?_
    have hlast := h.certificate
    simp only [validateLastCertificate, hc, bind_eq_ok] at hlast
    exact StepCertificate.within hlast.choose_spec.2
  have hdirect : (mapCodec Id.codec DirectLane.codec).Within
      (4 + maxParticipants * (32 + maxLaneBytes)) s.direct := by
    have hlanes : ∀ p ∈ s.direct.entries,
        LaneRecoverable s.binding s.producer p.1 p.2 := fun p hp =>
      h.lanes _ _ ((s.direct.mem_entries_iff p.1 p.2).1 hp)
    have hsize := OrdMap.size_le_of_keys fun p hp =>
      (s.binding.isParticipant_iff p.1).1 (hlanes p hp).participant
    rw [s.binding.length_participants] at hsize
    exact Codec.Within.partialInv <| Codec.within_vec _ (hsize.trans s.binding.length_le) (by decide)
      fun p hp => (Id.within p.1).pair (DirectLane.within (hlanes p hp))
  have hproposal : (SharedProposal.codec (κ := κ)).option.Within (maxProposalBytes + 1)
      s.proposal := Codec.within_option fun proposal hp =>
    (h.proposal proposal hp).within (hcallouts.staged proposal hp)
  have hfields := (Id.within s.executionId).pair <| hbinding.pair <| (Id.within s.producer).pair <|
    hstatus.pair <| (Codec.within_u64 s.version).pair <| (Codec.within_u64 s.eventPosition).pair <|
    (Codec.within_u64 s.agreedStep).pair <| (Codec.within_le htrace).pair <|
    (Id.within s.agreedState).pair <| (Codec.within_fixed 32 s.agreedLink).pair <|
    hcertificate.pair <| (EndPhase.within h.ending).pair <| hdirect.pair <|
    (outgoing_within h.outgoing).pair <|
    (BoundedBytes.within (by decide) s.sharedState).pair <|
    (BoundedBytes.within (by decide) s.localState).pair <|
    hproposal.pair hcallouts.current.within
  exact ⟨hfields.valid, hfields.length_le.trans (by decide)⟩

theorem calloutBounded_of_fits {callout : Option OpenCallout}
    (h : OpenCallout.codec.option.fits callout = true) : CalloutBounded callout := by
  rintro c rfl
  have hfits : (true && (true && decide (c.context.length ≤ maxCalloutContextBytes))) = true := h
  simpa using hfits

theorem calloutsBounded_of_encode {bytes : Bytes} (h : s.encode = .ok bytes) :
    s.CalloutsBounded := by
  simp only [encode, bind_eq_ok, okOr_eq_ok, Codec.toVec_eq_some_iff] at h
  obtain ⟨_, ⟨hfits, -⟩, -⟩ := h
  simp only [fieldsCodec, fields, Codec.pair_fits, Bool.and_eq_true] at hfits
  obtain ⟨-, -, -, -, -, -, -, -, -, -, -, -, -, -, -, -, hproposal, hcallout⟩ := hfits
  refine ⟨calloutBounded_of_fits hcallout, fun proposal hp => ?_⟩
  rw [hp, Codec.option_fits_some] at hproposal
  simp only [SharedProposal.codec, Codec.equiv_fits, Equiv.coe_fn_symm_mk, Codec.pair_fits,
    Bool.and_eq_true] at hproposal
  obtain ⟨-, -, -, -, -, -, -, hstaged, -⟩ := hproposal
  exact calloutBounded_of_fits hstaged

theorem Recoverable.encode_eq_ok (h : s.Recoverable) (hcallouts : s.CalloutsBounded) :
    ∃ bytes, s.encode = .ok bytes ∧ bytes.length ≤ maxExecutionStateBytes := by
  have hwithin := h.within hcallouts
  refine ⟨fieldsCodec.encode s.fields, ?_, hwithin.length_le⟩
  simp only [encode, ensureEncoded, bind_eq_ok, okOr_eq_ok, ensure_eq_ok, pure_eq_ok]
  exact ⟨_, hwithin.toVec, (), hwithin.length_le, rfl⟩

/-- An aggregate that passes the checks of a restart is read back from its encoding. -/
theorem Recoverable.decode_encode (h : s.Recoverable) (hcallouts : s.CalloutsBounded)
    (hid : ∀ id, s.status.publishedReceiptId = some id → id ≠ 0) :
    ∃ bytes, s.encode = .ok bytes ∧ bytes.length ≤ maxExecutionStateBytes ∧
      decode bytes = .ok s := by
  have hwithin := h.within hcallouts
  refine ⟨fieldsCodec.encode s.fields, ?_, hwithin.length_le, ?_⟩
  · simp only [encode, ensureEncoded, bind_eq_ok, okOr_eq_ok, ensure_eq_ok, pure_eq_ok]
    exact ⟨_, hwithin.toVec, (), hwithin.length_le, rfl⟩
  · simp only [decode, ensureEncoded, bind_eq_ok, okOr_eq_ok, ensure_eq_ok, pure_eq_ok]
    exact ⟨(), hwithin.length_le, s.fields, fieldsCodec.fromSlice_encode hwithin.valid,
      s.receiptOverhead, h.overhead, (), h.validateRecovered_eq_ok hid, s.restore_fields⟩

/-! ## Callouts along a run -/

theorem nextOpenCallout_bounded {position : UInt64}
    {request : Option CalloutRequest}
    (h : ∀ r, request = some r → r.context.length ≤ maxCalloutContextBytes) :
    CalloutBounded (s.nextOpenCallout event position status request) := by
  intro c hc
  unfold nextOpenCallout at hc
  split at hc
  · obtain ⟨r, hr, rfl⟩ := Option.map_eq_some_iff.1 hc
    have hbound := h r hr
    split
    · split
      · -- the question that is kept has the requested context
        rename_i hsame
        rw [hsame.2.2]
        exact hbound
      · exact hbound
    · exact hbound
  · cases hc

variable {t : ExecutionState κ}

theorem applyAgreed_callout {result : DispatchResult κ} {postState : StateHash}
    {indexed : List (UInt32 × Effect)} {lifecycle : Option Effect} {frame : Option ExecFrame}
    (h : s.applyAgreed event result postState indexed lifecycle = .ok (t, frame)) :
    t.callout = s.callout ∧ ∃ proposal status, t.proposal = some proposal ∧
      proposal.callout = s.nextOpenCallout event s.eventPosition status result.callout := by
  simp only [applyAgreed, SharedProposal.new, bind_eq_ok, ensure_eq_ok, okOr_eq_ok,
    pure_eq_ok, Prod.mk.injEq] at h
  obtain ⟨_, -, _, -, _, -, status, -, proposal, ⟨_, -, _, -, _, -, rfl⟩, next, hstage, rfl, -⟩ := h
  obtain ⟨-, -, -, -, position, version, -, -, rfl⟩ := stageProposal_eq_ok hstage
  exact ⟨rfl, _, status, rfl, rfl⟩

theorem CalloutsBounded.applyDispatch {result : DispatchResult κ}
    {pendingId : Option UInt64} {frame : Option ExecFrame} (h : s.CalloutsBounded)
    (hrequest : ∀ r, result.callout = some r → r.context.length ≤ maxCalloutContextBytes)
    (ht : s.applyDispatch event result pendingId = .ok (t, frame)) : t.CalloutsBounded := by
  obtain ⟨-, ⟨-, -, lifecycle, hlocal⟩ | ⟨-, -, indexed, lifecycle, -, hagreed⟩⟩ :=
    applyDispatch_eq_ok ht
  · obtain ⟨-, -, -, _, _, _, _, -, -, -, -, -, rfl⟩ := applyLocal_eq_ok hlocal
    have hnext : CalloutBounded (s.nextOpenCallout event s.eventPosition .active result.callout) :=
      nextOpenCallout_bounded hrequest
    exact ⟨hnext, h.staged⟩
  · obtain ⟨hcallout, proposal, status, hproposal, hstaged⟩ := applyAgreed_callout hagreed
    refine ⟨hcallout ▸ h.current, fun p hp => ?_⟩
    obtain rfl := Option.some.inj (hproposal.symm.trans hp)
    rw [hstaged]
    exact nextOpenCallout_bounded hrequest

theorem CalloutsBounded.certifyStep {certificate : StepCertificate} {committed : SharedProposal κ}
    (h : s.CalloutsBounded) (ht : s.certifyStep certificate = .ok (t, committed)) :
    t.CalloutsBounded := by
  obtain ⟨proposal, next, bytes, v, hproposal, -, -, -, -, -, -, -, rfl⟩ := certifyStep_eq_ok ht
  exact ⟨h.staged proposal hproposal, fun p hp => nomatch hp⟩

theorem CalloutsBounded.setProposal {proposal : SharedProposal κ} (h : s.CalloutsBounded)
    (hproposal : CalloutBounded proposal.callout) :
    ({ s with proposal := some proposal } : ExecutionState κ).CalloutsBounded := by
  refine ⟨h.current, fun p hp => ?_⟩
  cases hp
  exact hproposal

theorem CalloutsBounded.addStepSignature {x : ParticipantStepSignature}
    {committed : Option (SharedProposal κ)} (h : s.CalloutsBounded)
    (ht : s.addStepSignature x = .ok (t, committed)) : t.CalloutsBounded := by
  obtain ⟨proposal, signed, hproposal, hsigned, hcases⟩ := addStepSignature_eq_ok ht
  have hbounded : CalloutBounded signed.callout := by
    obtain ⟨-, -, rfl⟩ := SharedProposal.addSignature_eq_ok hsigned
    exact h.staged proposal hproposal
  have hnext := h.setProposal hbounded
  obtain ⟨-, -, v, -, rfl⟩ | ⟨-, certificate, done, -, -, hcert⟩ := hcases
  · exact ⟨hnext.current, hnext.staged⟩
  · exact hnext.certifyStep hcert

end ExecutionState

namespace Op

/-- The context of a requested callout is within the bound its reader enforces. -/
def RequestsBounded (op : Op κ) : Prop :=
  ∀ event result pendingId, op = .applyDispatch event result pendingId →
    ∀ r, result.callout = some r → r.context.length ≤ maxCalloutContextBytes

theorem apply_calloutsBounded {s t : ExecutionState κ} {op : Op κ} (hop : op.RequestsBounded)
    (h : s.CalloutsBounded) (ht : op.apply s = .ok t) : t.CalloutsBounded := by
  cases op with
  | activate =>
    obtain ⟨-, -, v, -, rfl⟩ := ExecutionState.activate_eq_ok ht
    exact ⟨h.current, h.staged⟩
  | applyDispatch event result pendingId =>
    obtain ⟨⟨u, frame⟩, hu, rfl⟩ := map_eq_ok.1 ht
    exact h.applyDispatch (hop event result pendingId rfl) hu
  | addStepSignature signature =>
    obtain ⟨⟨u, committed⟩, hu, rfl⟩ := map_eq_ok.1 ht
    exact h.addStepSignature hu
  | certifyStep certificate =>
    obtain ⟨⟨u, committed⟩, hu, rfl⟩ := map_eq_ok.1 ht
    exact h.certifyStep hu
  | stop occurrence =>
    obtain ⟨-, -, -, -, -, -, v, -, rfl⟩ := ExecutionState.stop_eq_ok ht
    exact ⟨ExecutionState.calloutBounded_none, fun p hp => nomatch hp⟩
  | publishReceipt artifact =>
    obtain ⟨-, status, v, -, -, rfl⟩ := ExecutionState.publishReceipt_eq_ok ht
    exact ⟨ExecutionState.calloutBounded_none, h.staged⟩
  | dropOutgoingHead | recordDirect _ _ | ackDirect _ _ | confirmEnd _ | expireEnd =>
    have hrests := rests rfl ht
    exact ⟨hrests.callout ▸ h.current, hrests.proposal ▸ h.staged⟩

theorem run_calloutsBounded {s : ExecutionState κ} {ops : List (Op κ)}
    (hops : ∀ op ∈ ops, op.RequestsBounded) (h : s.CalloutsBounded) :
    (run s ops).CalloutsBounded := by
  induction ops generalizing s with
  | nil => exact h
  | cons op ops ih =>
    have hstep : (op.step s).CalloutsBounded := by
      unfold step
      split
      · exact apply_calloutsBounded (hops op (by simp)) h ‹_›
      · exact h
    exact ih (fun op' hop' => hops op' (by simp [hop'])) hstep

theorem calloutsBounded_new {executionId : ExecId} {activation : Activation κ} {producer : PeerId}
    {sharedState : SharedStateBytes} {localState : LocalStateBytes} {s : ExecutionState κ}
    (h : ExecutionState.new executionId activation producer sharedState localState = .ok s) :
    s.CalloutsBounded := by
  simp only [ExecutionState.new, bind_eq_ok, pure_eq_ok] at h
  obtain ⟨_, _, _, _, _, _, _, _, _, _, rfl⟩ := h
  exact ⟨ExecutionState.calloutBounded_none, fun p hp => nomatch hp⟩

end Op

/-- Every aggregate of a run is written within its bound and read back, reserve included;
whatever bytes decode hold an aggregate that passes the checks of a restart. -/
theorem durable_encoding_lossless {executionId : ExecId} {activation : Activation κ}
    {producer : PeerId} {sharedState : SharedStateBytes} {localState : LocalStateBytes}
    {s : ExecutionState κ}
    (hnew : ExecutionState.new executionId activation producer sharedState localState = .ok s)
    (ops : List (Op κ)) (hops : ∀ op ∈ ops, op.PublishesNonzero ∧ op.RequestsBounded) :
    (∃ bytes, (Op.run s ops).encode = .ok bytes ∧ bytes.length ≤ maxExecutionStateBytes ∧
      ExecutionState.decode bytes = .ok (Op.run s ops)) ∧
    ∀ (bytes : Bytes) (t : ExecutionState κ), ExecutionState.decode bytes = .ok t →
      t.validateRecovered = .ok () := by
  obtain ⟨hrec, hid⟩ := Op.run_sound (fun op hop => (hops op hop).1) (Op.sound_new hnew)
  have hcallouts := Op.run_calloutsBounded (fun op hop => (hops op hop).2)
    (Op.calloutsBounded_new hnew)
  exact ⟨hrec.decode_encode hcallouts hid, fun bytes t ht =>
    ExecutionState.validateRecovered_of_decode ht⟩

open Sample in
/-- The published aggregate of the reference session is read back from its encoding. -/
theorem durable_encoding_lossless_published : ∃ artifact bytes,
    (Op.run (state 1) (publishedOps artifact)).status =
        .stoppedPublished (.authenticated quit) artifact.receiptId ∧
      (Op.run (state 1) (publishedOps artifact)).encode = .ok bytes ∧
      ExecutionState.decode bytes = .ok (Op.run (state 1) (publishedOps artifact)) := by
  obtain ⟨artifact, hops, hstatus⟩ := exists_published
  have hrequests : ∀ op ∈ publishedOps artifact, op.RequestsBounded := by
    rintro op hop event result pendingId rfl r hr
    obtain ⟨-, rfl, -⟩ : _ ∧ result = ⟨shared, localState, [], none, some ⟨0, [1]⟩⟩ ∧ _ := by
      simpa [publishedOps] using hop
    cases hr
    decide
  obtain ⟨⟨bytes, hencode, -, hdecode⟩, -⟩ := durable_encoding_lossless
    (new_eq_ok (n := 1) (by decide +kernel)) _ fun op hop => ⟨hops op hop, hrequests op hop⟩
  exact ⟨artifact, bytes, hstatus, hencode, hdecode⟩

end Arena0
