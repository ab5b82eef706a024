import Arena0.Projection

/-!
# The records of committed decisions

What a committed decision contributes to the rows beside the aggregate: a
dispatch appends the one record that the next event position counts, with an
event and effects that read back, and only a publication attaches a receipt.
-/

namespace Arena0

open Borsh Fallible Actor ExecutionState

variable {κ : Primitives} {s t : ExecutionState κ} {event : Event}

/-! ## Events and effects that read back -/

theorem StepEvent.encode_ofEvent {e : StepEvent}
    (h : StepEvent.ofEvent event = some e) :
    Event.codec.encode event = StepEvent.codec.encode e := by
  cases event with
  | sessionStarted ensemble | messageReceived source msg =>
    cases h
    rfl
  | _ => cases h

private theorem StepEvent.within_ofEvent {e : StepEvent} {n : ℕ}
    (h : StepEvent.ofEvent event = some e) (he : StepEvent.codec.Within n e) :
    Event.codec.Within n event := by
  refine ⟨?_, (encode_ofEvent h).symm ▸ he.length_le⟩
  cases event with
  | sessionStarted ensemble =>
    cases h
    exact he.valid
  | messageReceived source msg =>
    cases h
    -- the reader of a trace event is the stricter of the two
    have hvalid : (true && decide (msg.length ≤ maxEffectPayloadBytes)) = true := he.valid
    have hle : msg.length ≤ maxEffectPayloadBytes := by simpa using hvalid
    show (true && decide (msg.length ≤ 256 ^ 4 - 1)) = true
    rw [Bool.true_and, decide_eq_true_iff]
    exact hle.trans (by decide)
  | _ => cases h

private theorem TraceEntry.within_event {e : TraceEntry} (h : validateTraceEntry e = .ok ()) :
    StepEvent.codec.Within maxTraceEntryBytes e.event := by
  have hentry := TraceEntry.within h
  have hfields : (Codec.u32.pair <| Codec.u64.pair <| StepEvent.codec.pair <| Id.codec.pair <|
      Id.codec.pair <| StepTerminal.codec.option.pair AggregateAttestation.codec).Within
      maxTraceEntryBytes (e.traceVersion, e.step, e.event, e.preState, e.postState, e.terminal,
        e.agreement) :=
    ⟨(Bool.and_eq_true_iff.1 hentry.valid).1, hentry.length_le⟩
  exact hfields.right.right.left

theorem TimerPayload.within {timer : TimerPayload} (h : codec.fits timer = true) :
    codec.Within (8 + maxTerminalReasonBytes + maxTimerPayloadBytes) timer := by
  obtain ⟨hname, hdata⟩ := Bool.and_eq_true_iff.1 h
  have hfields := (Codec.within_string (by decide) (of_decide_eq_true hname) (le_refl _)).pair
    (Codec.within_byteVec (by decide) (of_decide_eq_true hdata) (le_refl _))
  exact ⟨hfields.valid, hfields.length_le.trans (by decide)⟩

private theorem Event.within_local (hlocal : event.isAgreed = false)
    (h : codec.fits event = true) : codec.Within maxExecutionStateBytes event := by
  cases event with
  | sessionStarted ensemble | messageReceived source msg => cases hlocal
  | inputReceived calloutIndex data =>
    have hfits : (true && decide (data.length ≤ maxEffectPayloadBytes)) = true := h
    have hfields := (Codec.within_u32 calloutIndex).pair
      (Codec.within_byteVec (by decide) (by simpa using hfits) (le_refl maxEffectPayloadBytes))
    exact ⟨hfields.valid, (Nat.succ_le_succ hfields.length_le).trans (by decide)⟩
  | timerFired timer =>
    have hfields := TimerPayload.within h
    exact ⟨hfields.valid, (Nat.succ_le_succ hfields.length_le).trans (by decide)⟩
  | directReceived source msg attachment =>
    have hfits : (true && (decide (msg.length ≤ maxDirectControlBytes) &&
      Codec.u32.option.fits attachment)) = true := h
    have hmsg : msg.length ≤ maxDirectControlBytes := by
      simp only [Bool.true_and, Bool.and_eq_true, decide_eq_true_eq] at hfits
      exact hfits.1
    have hfields := (Id.within source).pair <|
      (Codec.within_byteVec (by decide) hmsg (le_refl maxDirectControlBytes)).pair
        (Codec.within_option fun (a : UInt32) (_ : attachment = some a) => Codec.within_u32 a)
    exact ⟨hfields.valid, (Nat.succ_le_succ hfields.length_le).trans (by decide)⟩

theorem effectsCodec_within {effects : List Effect} (h : checkEffectBudget effects = .ok ()) :
    effectsCodec.Within maxEffectBytes effects := by
  obtain ⟨hlen, heffects, hsum⟩ := checkEffectBudget_eq_ok.1 h
  have hbound : maxEffects ≤ 256 ^ 4 - 1 := by decide
  refine (Codec.within_vec_sum _ (hlen.trans hbound) ?_ (le_refl (encodedLength effects))).mono hsum
  intro e he
  rw [Effect.codec_valid]
  exact (heffects e he).2

/-! ## What committed decisions record -/

/-- What a decision contributes to the rows beside the aggregate. -/
inductive Contributes (db : Db κ) (s t : ExecutionState κ) : Change κ → Prop
  | aggregate {change : Change κ} (hchange : change = .state ∨ change = .stepSignature none)
      (hposition : t.eventPosition = s.eventPosition)
      (hpublished : t.status.publishedReceiptId = s.status.publishedReceiptId)
      (hkeep : s.status.publishedReceiptId.isSome = true → t.status = s.status) :
      Contributes db s t change
  | dispatch {event : Event} {effects : List Effect} {timerId : Option TimerId}
      (hposition : checkedAdd s.eventPosition 1 = some t.eventPosition)
      (hversion : t.version ≠ 0) (hstatus : t.status = s.status)
      (heffects : checkEffectBudget effects = .ok ())
      (hevent : Event.codec.fits event = true → Event.codec.Within maxExecutionStateBytes event) :
      Contributes db s t (.dispatch event effects timerId)
  | certify {proposal : SharedProposal κ} (hposition : t.eventPosition = s.eventPosition)
      (hversion : t.version ≠ 0) (hrunning : s.status.isTerminal = false)
      (hstatus : t.status.publishedReceiptId = none) :
      Contributes db s t (.stepSignature (some proposal))
  | publish {artifact : ReceiptArtifact κ} (hassemble : db.assembleReceipt s = .ok artifact)
      (hpublish : s.publishReceipt artifact = .ok t) : Contributes db s t (.publish artifact)

theorem ExecutionStatus.publishedReceiptId_of_running {status : ExecutionStatus κ}
    (h : status.isTerminal = false) : status.publishedReceiptId = none := by
  cases status with
  | activating | active => rfl
  | _ => cases h

theorem version_ne_zero {v w : UInt64} (h : checkedAdd v 1 = some w) : w ≠ 0 := by
  have hnat := checkedAdd_eq_some h
  rintro rfl
  simp at hnat

private theorem Contributes.of_applyDispatch {db : Db κ}
    {result : DispatchResult κ} {pendingId : Option UInt64} {frame : Option ExecFrame}
    {timerId : Option TimerId} (h : s.applyDispatch event result pendingId = .ok (t, frame)) :
    Contributes db s t (.dispatch event result.effects timerId) := by
  obtain ⟨hbudget, ⟨hevent, -, lifecycle, hlocal⟩ |
    ⟨-, -, indexed, lifecycle, hindexed, hagreed⟩⟩ := applyDispatch_eq_ok h
  · obtain ⟨-, hactive, -, _, _, _, _, -, -, -, hposition, hversion, rfl⟩ :=
      applyLocal_eq_ok hlocal
    exact .dispatch hposition (version_ne_zero hversion) hactive.symm hbudget
      fun hfits => Event.within_local hevent hfits
  · obtain ⟨-, -, proposal, _, _, hstaged, -, hposition, hversion, rfl⟩ :=
      applyAgreed_eq_ok hindexed hagreed
    refine .dispatch hposition (version_ne_zero hversion) rfl hbudget fun _ => ?_
    have hentry := (validateProposal_eq_ok.1 hstaged.valid).1.entry_valid
    simp only [validateSharedEntry, bind_eq_ok] at hentry
    obtain ⟨_, hvalid, -⟩ := hentry
    exact (StepEvent.within_ofEvent hstaged.event_eq (TraceEntry.within_event hvalid)).mono
      (by decide)

private theorem Contributes.of_certifies {db : Db κ}
    {proposal committed : SharedProposal κ} {certificate : StepCertificate}
    (hrunning : s.status.isTerminal = false) (h : Certifies s t proposal certificate) :
    Contributes db s t (.stepSignature (some committed)) := by
  obtain ⟨hvalid, -, -, _, _, _, -, -, hversion, rfl⟩ := h
  exact .certify rfl (version_ne_zero hversion) hrunning
    (ExecutionStatus.publishedReceiptId_of_proposal (validateProposal_eq_ok.1 hvalid).1.status_valid)

theorem Committed.contributes {keys : HostKeys} {db : Db κ}
    {input : Input} {change : Change κ} (h : Committed keys db s input t change)
    (hrec : s.Recoverable) : Contributes db s t change := by
  have hsign : ∀ {x : ParticipantStepSignature} {certified : Option (SharedProposal κ)},
      s.addStepSignature x = .ok (t, certified) →
        Contributes db s t (.stepSignature certified) := by
    intro x certified hadd
    obtain ⟨proposal, signed, hproposal, -, ⟨-, rfl, version, -, rfl⟩ |
      ⟨-, certificate, done, rfl, -, hcertify⟩⟩ := addStepSignature_eq_ok hadd
    · exact .aggregate (.inr rfl) rfl rfl fun _ => rfl
    · exact .of_certifies (hrec.running hproposal) (Certifies.of_certifyStep hcertify).1
  have hconfirm : ∀ {peer : PeerId}, s.confirmEnd peer = .ok (some t) →
      Contributes db s t .state := by
    intro peer hpeer
    obtain ⟨_, _, _, -, -, -, rfl, -⟩ := confirmEnd_eq_ok hpeer
    exact .aggregate (.inl rfl) rfl rfl fun _ => rfl
  have hstop : ∀ {occurrence : AbortOccurrence}, s.stop occurrence = .ok t →
      Contributes db s t .state := by
    intro occurrence hstop
    obtain ⟨-, -, -, -, hopen, -, _, -, rfl⟩ := stop_eq_ok hstop
    have hnone := ExecutionStatus.publishedReceiptId_of_running hopen
    refine .aggregate (.inl rfl) rfl hnone.symm fun hsome => ?_
    rw [hnone] at hsome
    cases hsome
  have hrecord : ∀ {source : PeerId} {seq : UInt64}, s.recordDirect source seq = .ok t →
      Contributes db s t .state := by
    intro source seq hrecord
    obtain ⟨-, -, -, _, -, rfl⟩ := recordDirect_eq_ok hrecord
    exact .aggregate (.inl rfl) rfl rfl fun _ => rfl
  cases h with
  | activate h =>
    obtain ⟨hstatus, -, v, -, rfl⟩ := activate_eq_ok h
    refine .aggregate (.inl rfl) rfl ?_ ?_
    all_goals simp [hstatus, ExecutionStatus.publishedReceiptId]
  | dispatch hinput h => exact .of_applyDispatch h
  | message h hstaged => exact .of_applyDispatch h
  | direct hopen hlocal h hrecord =>
    have hdispatch : Contributes db s _ (.dispatch _ _ none) := .of_applyDispatch h
    cases hdispatch with
    | dispatch hposition hversion hstatus heffects hevent =>
      obtain ⟨-, -, -, _, hv, rfl⟩ := recordDirect_eq_ok hrecord
      exact .dispatch hposition (version_ne_zero hv) hstatus heffects hevent
    | aggregate hchange => simp at hchange
  | discard hopen h => exact hrecord h
  | drop h =>
    obtain ⟨-, v, -, rfl⟩ := dropOutgoingHead_eq_ok h
    exact .aggregate (.inl rfl) rfl rfl fun _ => rfl
  | sign hproposal h => exact hsign h
  | signature hproposal h => exact hsign h
  | certificate h =>
    obtain ⟨p, hp, hcertifies, rfl⟩ := Certifies.exists_of_certifyStep h
    exact .of_certifies (hrec.running hp) hcertifies
  | stop hsender h => exact hstop h
  | abort h => exact hstop h
  | publish hassemble h => exact .publish hassemble h
  | ack houtcome h =>
    obtain ⟨-, -, v, -, rfl⟩ := ackDirect_eq_ok h
    exact .aggregate (.inl rfl) rfl rfl fun _ => rfl
  | evidence hauth hterminal hmatch h => exact hconfirm h
  | confirmed hfinal h => exact hconfirm h
  | expire h =>
    obtain ⟨_, v, -, -, rfl⟩ := expireEnd_eq_ok h
    exact .aggregate (.inl rfl) rfl rfl fun _ => rfl

/-! ## Rows that pass their checks -/

theorem openColumn_eq_ok {kind : EnvelopeKind} {payload : Bytes} {max : ℕ}
    (h : payload.length ≤ max) (hmax : max ≤ 256 ^ 4 - 1) :
    openColumn κ kind payload max = .ok payload := by
  obtain ⟨encoded, hseal⟩ : ∃ encoded, DurableEnvelope.«seal» κ kind payload = .ok encoded :=
    DurableEnvelope.seal_eq_ok (h.trans hmax)
  simp only [openColumn, hseal, ok_bind]
  exact DurableEnvelope.open_seal hseal h

structure EventRow.Recorded (κ : Primitives) (row : EventRow) : Prop where
  event : ∃ event, Event.codec.Within maxExecutionStateBytes event ∧
    row.event = Event.codec.encode event
  effects : ∃ effects, checkEffectBudget effects = .ok () ∧
    row.effects = effectsCodec.encode effects
  digest : row.eventDigest = Db.dispatchDigest κ row.event row.effects

theorem EventRow.Recorded.validateEventRow_eq_ok {row : EventRow} {count : ℕ}
    (h : row.Recorded κ) (hposition : row.eventPosition.toNat = count)
    (hcount : count + 1 < 2 ^ 64) : Db.validateEventRow κ count row = .ok () := by
  obtain ⟨event, hevent, heventEq⟩ := h.event
  obtain ⟨effects, hbudget, heffectsEq⟩ := h.effects
  have heffects := effectsCodec_within hbudget
  have hdigest := h.digest
  rw [heventEq, heffectsEq] at hdigest
  simp only [Db.validateEventRow, heventEq, heffectsEq, bind_eq_ok, ensure_eq_ok, okOr_eq_ok,
    mapError_eq_ok]
  exact ⟨(), hposition, (), hcount, _, openColumn_eq_ok hevent.length_le (by decide), _,
    openColumn_eq_ok (heffects.length_le.trans (by decide)) (by decide), event,
    Event.codec.fromSlice_encode hevent.valid, effects, effectsCodec.fromSlice_encode heffects.valid,
    (), hbudget, hdigest.symm⟩

theorem Db.validateEventLoop_eq_ok {rows : List EventRow} (count : ℕ)
    (hrows : ∀ row ∈ rows, row.Recorded κ)
    (hpositions : rows.map (·.eventPosition.toNat) = List.range' count rows.length)
    (hcount : count + rows.length < 2 ^ 64) :
    validateEventLoop κ count rows = .ok (count + rows.length) := by
  induction rows generalizing count with
  | nil => rfl
  | cons row rows ih =>
    simp only [List.map_cons, List.length_cons, List.range'_succ, List.cons.injEq] at hpositions
    simp only [List.length_cons] at hcount
    have hrow := (hrows row (by simp)).validateEventRow_eq_ok hpositions.1 (by omega)
    have hrest := ih (count + 1) (fun r hr => hrows r (by simp [hr])) hpositions.2 (by omega)
    simp only [validateEventLoop, hrow, ok_bind, hrest, List.length_cons]
    exact congrArg Except.ok (by omega)

structure TimerRow.Armed (version : UInt64) (row : TimerRow) : Prop where
  version_ne : row.armedVersion ≠ 0
  version_le : row.armedVersion ≤ version
  length_le : row.payload.length ≤ maxTimerRecordBytes
  payload : ∃ timer, TimerPayload.codec.fits timer = true ∧
    row.payload = TimerPayload.codec.encode timer

theorem TimerRow.Armed.validateTimerRow_eq_ok {version : UInt64} {row : TimerRow}
    (h : row.Armed version) : Db.validateTimerRow κ version row = .ok () := by
  obtain ⟨timer, hfits, heq⟩ := h.payload
  have htimer := TimerPayload.within hfits
  obtain ⟨hname, hdata⟩ := Bool.and_eq_true_iff.1 hfits
  have hlength := h.length_le
  rw [heq] at hlength
  simp only [Db.validateTimerRow, heq, bind_eq_ok, ensure_eq_ok, okOr_eq_ok]
  exact ⟨_, openColumn_eq_ok hlength (by decide), timer,
    TimerPayload.codec.fromSlice_encode htimer.valid, (),
    ⟨of_decide_eq_true hname, of_decide_eq_true hdata⟩, h.version_ne, h.version_le⟩

theorem TimerRow.Armed.mono {version version' : UInt64} {row : TimerRow} (h : row.Armed version)
    (hversion : version ≤ version') : row.Armed version' :=
  ⟨h.version_ne, UInt64.le_trans h.version_le hversion, h.length_le, h.payload⟩

theorem TimersFrom.armed {old timers : List TimerRow} {version version' : UInt64}
    (h : TimersFrom old version' timers) (hold : ∀ row ∈ old, row.Armed version)
    (hle : version ≤ version') (hne : version' ≠ 0) : ∀ row ∈ timers, row.Armed version' := by
  intro row hrow
  rcases h row hrow with hrow | harmed
  · exact (hold row hrow).mono hle
  · refine ⟨?_, ?_, harmed.length_le, harmed.payload⟩
    · rw [harmed.version_eq]
      exact hne
    · rw [harmed.version_eq]
      exact UInt64.le_refl version'

end Arena0
